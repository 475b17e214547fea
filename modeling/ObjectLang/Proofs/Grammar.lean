import ObjectLang.Proofs.RoundTrip
import Mathlib.Data.List.Forall2
import Mathlib.Data.List.Induction

/-!
# The grammar of listings

A line is read as the words in it: a name with a colon, `push` with a number or a name, a branch
with a name, or the name of an operation alone (`Instruction.Spelled`).  The reader does not look at
the words in this way.  It tests the end of the trimmed line for a colon before it cuts the line
into words, counts the words before it looks at the first one, and takes an operand for a name only
if it is not a number.  No line is read because of this that should not be, and none is refused
(`Instruction.parse_ok_iff`): a trimmed line ends as its last word does, names have no blanks in
them, and they are no numbers.

Words, digits and numbers are described by relations of their own (`Text.Separated`, `Text.Digits`,
`Text.Decimal`), which the functions that read them are shown to decide.
-/

namespace ObjectLang

namespace Text

/-! ### Words -/

/-- Characters, none of them blank. -/
structure IsWord (w : List Char) : Prop where
  ne_nil : w ≠ []
  char : ∀ c ∈ w, isBlank c = false

/-- The text consists of the words, which have blanks between them and may have blanks around
them. -/
inductive Separated : List Char → List (List Char) → Prop where
  | nil : Separated [] []
  | blank {c : Char} {s : List Char} {ws : List (List Char)} (hc : isBlank c = true)
    (h : Separated s ws) : Separated (c :: s) ws
  | last {w : List Char} (hw : IsWord w) : Separated w [w]
  | word {w : List Char} {c : Char} {s : List Char} {ws : List (List Char)} (hw : IsWord w)
    (hc : isBlank c = true) (h : Separated s ws) : Separated (w ++ c :: s) (w :: ws)

theorem IsWord.singleton {c : Char} (hc : isBlank c = false) : IsWord [c] :=
  ⟨List.cons_ne_nil c [], by simpa using hc⟩

theorem IsWord.cons {c : Char} {w : List Char} (hc : isBlank c = false) (h : IsWord w) :
    IsWord (c :: w) :=
  ⟨List.cons_ne_nil c w, List.forall_mem_cons.2 ⟨hc, h.char⟩⟩

theorem Solid.isWord {w : List Char} (h : Solid w) : IsWord w :=
  ⟨h.ne_nil, fun c hc => (h.char c hc).1⟩

theorem words_of_isWord {w : List Char} (h : IsWord w) : words w = [w] := by
  rw [words, List.splitOnP_eq_singleton h.char]
  simp [h.ne_nil]

theorem words_append_cons (a : List Char) {c : Char} (hc : isBlank c = true) (b : List Char) :
    words (a ++ c :: b) = words a ++ words b := by
  rw [words, List.splitOnP_append_cons _ _ hc, List.filter_append]
  rfl

theorem Separated.words_eq {s : List Char} {ws : List (List Char)} (h : Separated s ws) :
    words s = ws := by
  induction h with
  | nil => rfl
  | blank hc _ ih => exact (words_append_cons [] hc _).trans ih
  | last hw => exact words_of_isWord hw
  | word hw hc _ ih => rw [words_append_cons _ hc, words_of_isWord hw, ih, List.singleton_append]

theorem exists_separated (s : List Char) : ∃ ws, Separated s ws := by
  induction s with
  | nil => exact ⟨[], .nil⟩
  | cons c s ih =>
    obtain ⟨ws, h⟩ := ih
    cases hc : isBlank c with
    | true => exact ⟨ws, .blank hc h⟩
    | false =>
      -- the character is a word of its own, or else the first one of the next word
      cases h with
      | nil => exact ⟨_, .last (.singleton hc)⟩
      | blank hd h => exact ⟨_, .word (.singleton hc) hd h⟩
      | last hw => exact ⟨_, .last (hw.cons hc)⟩
      | word hw hd h => exact ⟨_, .word (hw.cons hc) hd h⟩

/-- The words of a text are those that it consists of. -/
theorem words_eq_iff {s : List Char} {ws : List (List Char)} : words s = ws ↔ Separated s ws := by
  refine ⟨fun h => ?_, Separated.words_eq⟩
  obtain ⟨ws', h'⟩ := exists_separated s
  rwa [← h, h'.words_eq]

/-! ### Trimmed text -/

/-- There are no blanks at the ends. -/
structure IsTrimmed (s : List Char) : Prop where
  head : ∀ c ∈ s.head?, isBlank c = false
  last : ∀ c ∈ s.getLast?, isBlank c = false

theorem head?_dropWhile_isBlank (s : List Char) :
    ∀ c ∈ (s.dropWhile isBlank).head?, isBlank c = false := by
  intro c hc
  have hnot := List.head?_dropWhile_not isBlank s
  rw [Option.mem_def.1 hc] at hnot
  exact hnot

theorem isTrimmed_trim (s : List Char) : IsTrimmed (trim s) where
  head c hc := by
    have hprefix : trim s <+: s.dropWhile isBlank := by
      rw [trim, ← List.reverse_suffix, List.reverse_reverse]
      exact List.dropWhile_suffix isBlank
    obtain ⟨rest, hrest⟩ := hprefix
    refine head?_dropWhile_isBlank s c ?_
    rw [← hrest, List.head?_append, Option.mem_def.1 hc]
    rfl
  last c hc := by
    rw [trim, List.getLast?_reverse] at hc
    exact head?_dropWhile_isBlank _ c hc

/-- Trimming takes blanks away and nothing else. -/
theorem exists_trim (s : List Char) : ∃ before after, s = before ++ trim s ++ after ∧
    (∀ c ∈ before, isBlank c = true) ∧ ∀ c ∈ after, isBlank c = true := by
  refine ⟨s.takeWhile isBlank, ((s.dropWhile isBlank).reverse.takeWhile isBlank).reverse, ?_,
    List.all_eq_true.1 List.all_takeWhile, fun c hc => ?_⟩
  · rw [trim, List.append_assoc, ← List.reverse_append, List.takeWhile_append_dropWhile,
      List.reverse_reverse, List.takeWhile_append_dropWhile]
  · exact List.all_eq_true.1 List.all_takeWhile c (List.mem_reverse.1 hc)

theorem words_blank_append {a : List Char} (h : ∀ c ∈ a, isBlank c = true) (b : List Char) :
    words (a ++ b) = words b := by
  induction a with
  | nil => rfl
  | cons c a ih =>
    rw [List.forall_mem_cons] at h
    exact (words_append_cons [] h.1 _).trans (ih h.2)

theorem words_append_blank {b : List Char} (h : ∀ c ∈ b, isBlank c = true) (a : List Char) :
    words (a ++ b) = words a := by
  cases b with
  | nil => rw [List.append_nil]
  | cons c b =>
    rw [List.forall_mem_cons] at h
    have hnone : words (b ++ []) = [] := words_blank_append h.2 []
    rw [List.append_nil] at hnone
    rw [words_append_cons _ h.1, hnone, List.append_nil]

theorem words_trim (s : List Char) : words (trim s) = words s := by
  obtain ⟨before, after, hs, hbefore, hafter⟩ := exists_trim s
  conv_rhs => rw [hs, words_append_blank hafter, words_blank_append hbefore]

theorem Separated.isBlank_of_nil {s : List Char} {ws : List (List Char)} (h : Separated s ws)
    (hws : ws = []) : ∀ c ∈ s, isBlank c = true := by
  induction h with
  | nil => simp
  | blank hc _ ih => exact List.forall_mem_cons.2 ⟨hc, ih hws⟩
  | last | word => cases hws

theorem trim_eq_nil_iff {s : List Char} : trim s = [] ↔ ∀ c ∈ s, isBlank c = true := by
  obtain ⟨before, after, hs, hbefore, hafter⟩ := exists_trim s
  constructor
  · intro htrim
    rw [hs, htrim, List.append_nil]
    exact List.forall_mem_append.2 ⟨hbefore, hafter⟩
  · intro hblank
    -- a character at the start would be blank, and cannot be
    by_contra hne
    obtain ⟨c, cs, htrim⟩ := List.exists_cons_of_ne_nil hne
    have hc := (isTrimmed_trim s).head c (by rw [htrim]; rfl)
    have hmem : c ∈ s := by
      rw [hs, htrim]
      simp
    rw [hblank c hmem] at hc
    cases hc

/-- The last word ends as the text does. -/
theorem Separated.getLast?_eq {s : List Char} {ws : List (List Char)} (h : Separated s ws)
    {c : Char} (hc : s.getLast? = some c) (hblank : isBlank c = false) :
    ws.getLast?.bind List.getLast? = some c := by
  induction h with
  | nil => cases hc
  | @blank d s ws hd h ih =>
    cases s with
    | nil =>
      obtain rfl : d = c := by simpa using hc
      rw [hd] at hblank
      cases hblank
    | cons e s => exact ih hc
  | last hw => exact hc
  | @word w d s ws hw hd h ih =>
    cases s with
    | nil =>
      rw [List.getLast?_append_of_ne_nil _ (List.cons_ne_nil d []), List.getLast?_singleton] at hc
      obtain rfl := Option.some.inj hc
      rw [hd] at hblank
      cases hblank
    | cons e s =>
      rw [List.getLast?_append_of_ne_nil _ (List.cons_ne_nil d _)] at hc
      have hws := ih hc
      cases ws with
      | nil => cases hws
      | cons v ws => exact hws

/-- A trimmed text that has one word is that word. -/
theorem Separated.eq_of_singleton {s w : List Char} (h : Separated s [w]) (hs : IsTrimmed s) :
    s = w := by
  cases h with
  | @blank c s _ hc h =>
    have hhead := hs.head c rfl
    rw [hc] at hhead
    cases hhead
  | last hw => rfl
  | @word _ c s _ hw hc h =>
    -- all that comes after the word is blank, and it would be at the end
    have hrest : ∀ d ∈ c :: s, isBlank d = true := List.forall_mem_cons.2 ⟨hc, h.isBlank_of_nil rfl⟩
    obtain ⟨d, hd⟩ : ∃ d, (c :: s).getLast? = some d := ⟨_, List.getLast?_cons⟩
    have hlast := hs.last d (by rwa [List.getLast?_append_of_ne_nil _ (List.cons_ne_nil c s)])
    rw [hrest d (List.mem_of_getLast? hd)] at hlast
    cases hlast

/-! ### Numbers -/

/-- Decimal digits and their value. -/
inductive Digits : List Char → Nat → Prop where
  | one {c : Char} (hc : '0' ≤ c ∧ c ≤ '9') : Digits [c] (c.toNat - '0'.toNat)
  | more {ds : List Char} {n : Nat} {c : Char} (h : Digits ds n) (hc : '0' ≤ c ∧ c ≤ '9') :
    Digits (ds ++ [c]) (10 * n + (c.toNat - '0'.toNat))

/-- Decimal digits after an optional sign, and their value. -/
inductive Decimal : List Char → Int → Prop where
  | unsigned {ds : List Char} {n : Nat} (h : Digits ds n) : Decimal ds n
  | plus {ds : List Char} {n : Nat} (h : Digits ds n) : Decimal ('+' :: ds) n
  | minus {ds : List Char} {n : Nat} (h : Digits ds n) : Decimal ('-' :: ds) (-n)

theorem isDigit_iff {c : Char} : c.isDigit = true ↔ '0' ≤ c ∧ c ≤ '9' := by
  rw [Char.isDigit_iff_toNat]
  exact Iff.rfl

theorem Digits.spec {ds : List Char} {n : Nat} (h : Digits ds n) :
    ds ≠ [] ∧ (∀ c ∈ ds, c.isDigit = true) ∧ Nat.ofDigitChars 10 ds 0 = n := by
  induction h with
  | one hc => exact ⟨by simp, by simpa using isDigit_iff.2 hc, by simp [Nat.ofDigitChars]⟩
  | more h hc ih =>
    obtain ⟨-, hdigits, rfl⟩ := ih
    refine ⟨by simp, ?_, ?_⟩
    · rw [List.forall_mem_append]
      exact ⟨hdigits, by simpa using isDigit_iff.2 hc⟩
    · rw [Nat.ofDigitChars_append]
      rfl

theorem digits_of_forall {ds : List Char} (hne : ds ≠ []) (h : ∀ c ∈ ds, c.isDigit = true) :
    Digits ds (Nat.ofDigitChars 10 ds 0) := by
  induction ds using List.reverseRecOn with
  | nil => exact absurd rfl hne
  | append_singleton ds c ih =>
    rw [List.forall_mem_append] at h
    have hc : '0' ≤ c ∧ c ≤ '9' := isDigit_iff.1 (h.2 c (by simp))
    cases ds with
    | nil => simpa [Nat.ofDigitChars] using Digits.one hc
    | cons d ds =>
      rw [Nat.ofDigitChars_append]
      exact .more (ih (by simp) h.1) hc

theorem readNat?_eq_some_iff {ds : List Char} {n : Nat} : readNat? ds = some n ↔ Digits ds n := by
  constructor
  · intro h
    unfold readNat? at h
    split at h
    · rename_i hds
      simp only [Bool.and_eq_true, Bool.not_eq_true', List.isEmpty_eq_false_iff,
        List.all_eq_true] at hds
      obtain rfl := Option.some.inj h
      exact digits_of_forall hds.1 hds.2
    · cases h
  · intro h
    obtain ⟨hne, hdigits, rfl⟩ := h.spec
    rw [readNat?, if_pos]
    simpa [hne] using hdigits

theorem readInt?_minus (ds : List Char) :
    readInt? ('-' :: ds) = (readNat? ds).map fun n : Nat => -(n : Int) := by
  cases h : readNat? ds <;> simp [readInt?, h]

theorem readInt?_plus (ds : List Char) :
    readInt? ('+' :: ds) = (readNat? ds).map fun n : Nat => (n : Int) := by
  cases h : readNat? ds <;> simp [readInt?, h]

theorem readInt?_unsigned {ds : List Char} (hminus : ds.head? ≠ some '-')
    (hplus : ds.head? ≠ some '+') : readInt? ds = (readNat? ds).map fun n : Nat => (n : Int) := by
  rw [readInt?_of_ne hminus hplus]
  cases readNat? ds <;> rfl

theorem readInt?_eq_some_iff {w : List Char} {n : Int} : readInt? w = some n ↔ Decimal w n := by
  constructor
  · intro h
    by_cases hminus : w.head? = some '-'
    · obtain ⟨ds, rfl⟩ := List.head?_eq_some_iff.1 hminus
      rw [readInt?_minus] at h
      obtain ⟨m, hm, rfl⟩ := Option.map_eq_some_iff.1 h
      exact .minus (readNat?_eq_some_iff.1 hm)
    · by_cases hplus : w.head? = some '+'
      · obtain ⟨ds, rfl⟩ := List.head?_eq_some_iff.1 hplus
        rw [readInt?_plus] at h
        obtain ⟨m, hm, rfl⟩ := Option.map_eq_some_iff.1 h
        exact .plus (readNat?_eq_some_iff.1 hm)
      · rw [readInt?_unsigned hminus hplus] at h
        obtain ⟨m, hm, rfl⟩ := Option.map_eq_some_iff.1 h
        exact .unsigned (readNat?_eq_some_iff.1 hm)
  · intro h
    cases h with
    | unsigned h =>
      -- digits are no signs
      have hsign : ∀ c : Char, c.isDigit = false → w.head? ≠ some c := by
        intro c hc hhead
        have hdigit := h.spec.2.1 c (List.mem_of_mem_head? hhead)
        exact Bool.false_ne_true (hc.symm.trans hdigit)
      rw [readInt?_unsigned (hsign _ (by decide)) (hsign _ (by decide)), readNat?_eq_some_iff.2 h]
      rfl
    | plus h =>
      rw [readInt?_plus, readNat?_eq_some_iff.2 h]
      rfl
    | minus h =>
      rw [readInt?_minus, readNat?_eq_some_iff.2 h]
      rfl

/-- A text is read as a word if it writes the value of the word. -/
theorem readWord?_eq_some_iff {w : List Char} {v : Int64} :
    readWord? w = some v ↔ Decimal w v.toInt := by
  rw [← readInt?_eq_some_iff, readWord?, Option.bind_eq_some_iff]
  constructor
  · rintro ⟨n, hn, hv⟩
    split at hv
    · rename_i hrange
      obtain rfl := Option.some.inj hv
      rw [Int64.toInt_minValue, Int64.toInt_maxValue] at hrange
      rw [Int64.toInt_ofInt_of_le (by omega) (by omega)]
      exact hn
    · cases hv
  · intro hn
    refine ⟨_, hn, ?_⟩
    rw [if_pos ⟨v.minValue_le_toInt, v.toInt_le⟩, Int64.ofInt_toInt]

theorem Decimal.solid {w : List Char} {n : Int} (h : Decimal w n) : Solid w := by
  have hdigits : ∀ {ds : List Char} {n : Nat}, Digits ds n →
      ∀ c ∈ ds, isBlank c = false ∧ c ≠ ':' := fun hds c hc =>
    solid_char_of_isAlphanum (by simp [Char.isAlphanum, hds.spec.2.1 c hc])
  cases h with
  | unsigned h => exact ⟨h.spec.1, hdigits h⟩
  | plus h | minus h =>
    exact ⟨List.cons_ne_nil _ _, List.forall_mem_cons.2 ⟨by decide, hdigits h⟩⟩

end Text

/-! ### Instructions -/

/-- The operations that are written as a single word. -/
def Op.spellings : List (String × Op Label) :=
  [("pop", .pop), ("add", .add), ("sub", .sub), ("mult", .mult), ("div", .div), ("js", .js),
    ("lw", .lw), ("sw", .sw), ("lfp", .lfp), ("sfp", .sfp), ("cfp", .cfp), ("lra", .lra),
    ("sra", .sra), ("ltm", .ltm), ("stm", .stm), ("lhp", .lhp), ("shp", .shp), ("print", .print),
    ("halt", .halt)]

/-- A word, a second one where there is one, and the operation that they spell. -/
inductive Op.Spelled : String → Option (List Char) → Op Label → Prop where
  | push {w : List Char} {v : Int64} (h : Text.Decimal w v.toInt) :
    Spelled "push" (some w) (.push v)
  | pushTarget {l : Label} (h : l.IsName) : Spelled "push" (some l.toList) (.pushTarget l)
  | beq {l : Label} (h : l.IsName) : Spelled "beq" (some l.toList) (.beq l)
  | bleq {l : Label} (h : l.IsName) : Spelled "bleq" (some l.toList) (.bleq l)
  | b {l : Label} (h : l.IsName) : Spelled "b" (some l.toList) (.b l)
  | plain {word : String} {o : Op Label} (h : (word, o) ∈ spellings) : Spelled word none o

/-- The words of a line, and the instruction that they spell. -/
inductive Instruction.Spelled : List (List Char) → Instruction → Prop where
  | label {l : Label} (h : l.IsName) : Spelled [l.toList ++ [':']] (.label l)
  | op {word : String} {operand? : Option (List Char)} {o : Op Label}
    (h : Op.Spelled word operand? o) : Spelled (word.toList :: operand?.toList) (.op o)

theorem readLabel_ok_iff {w : List Char} {l : Label} :
    readLabel w = .ok l ↔ l.IsName ∧ w = l.toList := by
  constructor
  · intro h
    refine ⟨isName_iff.1 (isName_of_readLabel h), ?_⟩
    unfold readLabel at h
    split at h
    · cases h
      rw [String.toList_ofList]
    · cases h
  · rintro ⟨hl, rfl⟩
    exact readLabel_of_isName (isName_iff.2 hl)

namespace Op

theorem spellings_eq : spellings = plain.map fun o => (o.mnemonic, o) := rfl

theorem mem_spellings_of_ofMnemonic? {word : String} {o : Op Label}
    (h : ofMnemonic? word = some o) : (word, o) ∈ spellings := by
  have hword : o.mnemonic = word := by simpa using List.find?_some h
  rw [spellings_eq, ← hword]
  exact List.mem_map_of_mem (List.mem_of_find?_eq_some h)

theorem Spelled.of_read {word : String} {operand? : Option (List Char)} {o : Op Label}
    (h : read word operand? = .ok o) : Spelled word operand? o := by
  unfold read at h
  split at h
  · rename_i hpush
    subst hpush
    cases operand? with
    | none => cases h
    | some w =>
      simp only [readPush] at h
      split at h
      · rename_i v hv
        cases h
        exact .push (Text.readWord?_eq_some_iff.1 hv)
      · obtain ⟨l, hl, rfl⟩ := map_ok_iff.1 h
        obtain ⟨hname, rfl⟩ := readLabel_ok_iff.1 hl
        exact .pushTarget hname
  · split at h
    · rename_i branch hbranch
      cases operand? with
      | none => cases h
      | some w =>
        obtain ⟨l, hl, rfl⟩ := map_ok_iff.1 h
        obtain ⟨hname, rfl⟩ := readLabel_ok_iff.1 hl
        have hword : (branch "").mnemonic = word := by simpa using List.find?_some hbranch
        have hmem : branch ∈ [Op.beq, Op.bleq, Op.b] := List.mem_of_find?_eq_some hbranch
        subst hword
        simp only [List.mem_cons, List.not_mem_nil, or_false] at hmem
        rcases hmem with rfl | rfl | rfl
        · exact .beq hname
        · exact .bleq hname
        · exact .b hname
    · split at h
      · cases h
      · rename_i o' ho'
        cases h
        exact .plain (mem_spellings_of_ofMnemonic? ho')
      · cases h

theorem read_of_isName {o : Op Label} {l : Label} (ho : o.target? = some l) (hl : l.IsName) :
    read o.mnemonic (o.operand?.map String.toList) = .ok o := by
  refine read_mnemonic fun m hm => ?_
  obtain rfl := Option.some.inj (ho.symm.trans hm)
  exact isName_iff.2 hl

theorem read_of_mem_plain {o : Op Label} (h : o ∈ plain) : read o.mnemonic none = .ok o := by
  have hplain : ∀ o ∈ (plain : List (Op Label)), o.target? = none ∧ o.operand? = none := by
    simp [plain, target?, operand?]
  obtain ⟨htarget, hoperand⟩ := hplain o h
  have hread := read_mnemonic (o := o) (by simp [htarget])
  rwa [hoperand] at hread

theorem Spelled.read_eq {word : String} {operand? : Option (List Char)} {o : Op Label}
    (h : Spelled word operand? o) : read word operand? = .ok o := by
  cases h with
  | @push w v h =>
    show readPush w = _
    rw [readPush, Text.readWord?_eq_some_iff.2 h]
  | @pushTarget l h => exact read_of_isName (o := .pushTarget l) rfl h
  | @beq l h => exact read_of_isName (o := .beq l) rfl h
  | @bleq l h => exact read_of_isName (o := .bleq l) rfl h
  | @b l h => exact read_of_isName (o := .b l) rfl h
  | plain h =>
    rw [spellings_eq] at h
    obtain ⟨o', ho', heq⟩ := List.mem_map.1 h
    cases heq
    exact read_of_mem_plain ho'

/-- What an operation is spelled with has no colon at its end. -/
theorem Spelled.solid {word : String} {operand? : Option (List Char)} {o : Op Label}
    (h : Spelled word operand? o) : ∀ w ∈ word.toList :: operand?.toList, Text.Solid w := by
  have hname {l : Label} (hl : l.IsName) : Text.Solid l.toList := solid_of_isName (isName_iff.2 hl)
  have hword : ∀ {word : List Char}, isName word = true → Text.Solid word := solid_of_isName
  cases h with
  | push h => simpa using ⟨hword (by decide), h.solid⟩
  | pushTarget h | beq h | bleq h | b h => simpa using ⟨hword (by decide), hname h⟩
  | plain h =>
    rw [spellings_eq] at h
    obtain ⟨o', ho', heq⟩ := List.mem_map.1 h
    cases heq
    simpa using hword o.isName_mnemonic

end Op

namespace Instruction

theorem isWord_label {l : Label} (h : l.IsName) : Text.IsWord (l.toList ++ [':']) where
  ne_nil := by simp
  char := by
    have hl := (solid_of_isName (isName_iff.2 h)).isWord.char
    exact List.forall_mem_append.2 ⟨hl, List.forall_mem_singleton.2 (by decide)⟩

theorem Spelled.of_parseTrimmed {m : List Char} {i : Instruction} (h : parseTrimmed m = .ok i) :
    Spelled (Text.words m) i := by
  unfold parseTrimmed at h
  split at h
  · rename_i hcolon
    obtain ⟨l, hl, rfl⟩ := map_ok_iff.1 h
    obtain ⟨hname, hdrop⟩ := readLabel_ok_iff.1 hl
    obtain rfl : m = l.toList ++ [':'] := by
      rw [← hdrop, List.dropLast_append_getLast? ':' hcolon]
    rw [Text.words_of_isWord (isWord_label hname)]
    exact .label hname
  · split at h
    · cases h
    · rename_i word hwords
      obtain ⟨o, ho, rfl⟩ := map_ok_iff.1 h
      rw [hwords]
      simpa using Spelled.op (Op.Spelled.of_read ho)
    · rename_i word operand hwords
      obtain ⟨o, ho, rfl⟩ := map_ok_iff.1 h
      rw [hwords]
      simpa using Spelled.op (Op.Spelled.of_read ho)
    · cases h

/-- A line that spells an operation does not end in a colon. -/
theorem getLast?_ne_of_spelled {m : List Char} {word : String} {operand? : Option (List Char)}
    {o : Op Label} (hm : Text.words m = word.toList :: operand?.toList)
    (h : Op.Spelled word operand? o) : m.getLast? ≠ some ':' := by
  intro hcolon
  -- the last word would end in the colon
  have hlast := (Text.words_eq_iff.1 hm).getLast?_eq hcolon (by decide)
  obtain ⟨w, hw, hend⟩ := Option.bind_eq_some_iff.1 hlast
  have hsolid := h.solid w (List.mem_of_getLast? hw)
  exact (hsolid.char ':' (List.mem_of_getLast? hend)).2 rfl

theorem parseTrimmed_of_spelled {m : List Char} (hm : Text.IsTrimmed m) {i : Instruction}
    (h : Spelled (Text.words m) i) : parseTrimmed m = .ok i := by
  generalize hwords : Text.words m = ws at h
  cases h with
  | @label l h =>
    rw [(Text.words_eq_iff.1 hwords).eq_of_singleton hm, parseTrimmed_label,
      readLabel_of_isName (isName_iff.2 h)]
    rfl
  | @op word operand? o h =>
    rw [parseTrimmed, if_neg (getLast?_ne_of_spelled hwords h), hwords]
    cases operand? with
    | none =>
      show (Op.read (String.ofList word.toList) none).map op = _
      rw [String.ofList_toList, h.read_eq]
      rfl
    | some w =>
      show (Op.read (String.ofList word.toList) (some w)).map op = _
      rw [String.ofList_toList, h.read_eq]
      rfl

/-- The line consists of words that spell the instruction. -/
def Spells (line : List Char) (i : Instruction) : Prop :=
  ∃ ws, Text.Separated line ws ∧ Spelled ws i

/-- **A line is read if and only if its words spell an instruction**, which is then the result. -/
theorem parse_ok_iff {line : List Char} {i : Instruction} :
    parse (String.ofList line) = .ok i ↔ Spells line i := by
  rw [parse, String.toList_ofList]
  constructor
  · intro h
    refine ⟨_, Text.words_eq_iff.1 rfl, ?_⟩
    rw [← Text.words_trim]
    exact .of_parseTrimmed h
  · rintro ⟨ws, hws, h⟩
    refine parseTrimmed_of_spelled (Text.isTrimmed_trim line) ?_
    rwa [Text.words_trim, hws.words_eq]

end Instruction

/-! ### Listings -/

namespace Listing

/-- The lines that are not blank. -/
def written (lines : List (List Char)) : List (List Char) :=
  lines.filter fun line => !line.all Text.isBlank

/-- Line `k`, counted from zero, is refused for the given reason, and is the first one: those before
it are blank or spell instructions. -/
def Refuses (lines : List (List Char)) (k : Nat) (cause : ReadError) : Prop :=
  ∃ before line after, lines = before ++ line :: after ∧ before.length = k ∧
    (∀ l ∈ before, l.all Text.isBlank = true ∨ ∃ i, Instruction.Spells l i) ∧
    line.all Text.isBlank = false ∧ Instruction.parse (String.ofList line) = .error cause

theorem isEmpty_trim (line : List Char) : (Text.trim line).isEmpty = line.all Text.isBlank := by
  rw [Bool.eq_iff_iff, List.isEmpty_iff, List.all_eq_true]
  exact Text.trim_eq_nil_iff

section

variable {n k : Nat} {line : List Char} {lines : List (List Char)} {code : Listing}
  {cause : ReadError}

theorem parseLines_cons : parseLines n (line :: lines) =
    if line.all Text.isBlank then parseLines (n + 1) lines
    else match Instruction.parse (String.ofList line) with
      | .error cause => .error (.unreadable n cause)
      | .ok i => (parseLines (n + 1) lines).map (i :: ·) := by
  rw [Instruction.parse, String.toList_ofList, ← isEmpty_trim]
  rfl

theorem refuses_refused (hblank : line.all Text.isBlank = false) {c : ReadError}
    (hline : Instruction.parse (String.ofList line) = .error c) :
    Refuses (line :: lines) k cause ↔ k = 0 ∧ cause = c := by
  constructor
  · rintro ⟨before, bad, after, hlines, rfl, hbefore, -, hbad⟩
    cases before with
    | nil =>
      cases hlines
      exact ⟨rfl, Except.error.inj (hbad.symm.trans hline)⟩
    | cons first before =>
      cases hlines
      rcases (List.forall_mem_cons.1 hbefore).1 with h | ⟨i, h⟩
      · rw [hblank] at h
        cases h
      · rw [Instruction.parse_ok_iff.2 h] at hline
        cases hline
  · rintro ⟨rfl, rfl⟩
    exact ⟨[], line, lines, rfl, rfl, by simp, hblank, hline⟩

theorem refuses_accepted (h : line.all Text.isBlank = true ∨ ∃ i, Instruction.Spells line i) :
    Refuses (line :: lines) k cause ↔ ∃ j, k = j + 1 ∧ Refuses lines j cause := by
  constructor
  · rintro ⟨before, bad, after, hlines, rfl, hbefore, hblank, hbad⟩
    cases before with
    | nil =>
      cases hlines
      rcases h with h | ⟨i, h⟩
      · rw [hblank] at h
        cases h
      · rw [Instruction.parse_ok_iff.2 h] at hbad
        cases hbad
    | cons first before =>
      cases hlines
      have hrest := (List.forall_mem_cons.1 hbefore).2
      exact ⟨_, rfl, before, bad, after, rfl, rfl, hrest, hblank, hbad⟩
  · rintro ⟨j, rfl, before, bad, after, rfl, rfl, hbefore, hbad⟩
    exact ⟨line :: before, bad, after, rfl, rfl, List.forall_mem_cons.2 ⟨h, hbefore⟩, hbad⟩

/-- A listing is read if every line that is not blank spells an instruction. -/
theorem parseLines_ok_iff :
    parseLines n lines = .ok code ↔ List.Forall₂ Instruction.Spells (written lines) code := by
  induction lines generalizing n code with
  | nil => cases code <;> simp [parseLines, written]
  | cons line lines ih =>
    rw [parseLines_cons, written, List.filter_cons]
    cases line.all Text.isBlank with
    | true => exact ih
    | false =>
      cases hline : Instruction.parse (String.ofList line) with
      | error cause =>
        refine iff_of_false (by simp) fun h => ?_
        cases h with
        | cons hfirst _ =>
          rw [Instruction.parse_ok_iff.2 hfirst] at hline
          cases hline
      | ok i =>
        constructor
        · intro h
          obtain ⟨rest, hrest, rfl⟩ := map_ok_iff.1 h
          exact .cons (Instruction.parse_ok_iff.1 hline) (ih.1 hrest)
        · intro h
          cases h with
          | cons hfirst hrest =>
            cases (Instruction.parse_ok_iff.2 hfirst).symm.trans hline
            exact map_ok_iff.2 ⟨_, ih.2 hrest, rfl⟩

theorem map_error_iff {ε α β : Type} {x : Except ε α} {f : α → β} {e : ε} :
    x.map f = .error e ↔ x = .error e := by
  cases x <;> simp [Except.map]

/-- Otherwise the first line that is refused is reported. -/
theorem parseLines_error_iff {e : ListingError} : parseLines n lines = .error e ↔
    ∃ k cause, Refuses lines k cause ∧ e = .unreadable (n + k) cause := by
  induction lines generalizing n with
  | nil => simp [parseLines, Refuses]
  | cons line lines ih =>
    -- after a line that is not refused, the search goes on with the next number
    have hnext (hline : line.all Text.isBlank = true ∨ ∃ i, Instruction.Spells line i) :
        parseLines (n + 1) lines = .error e ↔
          ∃ k cause, Refuses (line :: lines) k cause ∧ e = .unreadable (n + k) cause := by
      simp only [ih, refuses_accepted hline]
      constructor
      · rintro ⟨k, cause, h, rfl⟩
        exact ⟨k + 1, cause, ⟨k, rfl, h⟩, by rw [Nat.add_assoc, Nat.add_comm 1]⟩
      · rintro ⟨_, cause, ⟨k, rfl, h⟩, rfl⟩
        exact ⟨k, cause, h, by rw [Nat.add_assoc, Nat.add_comm 1]⟩
    rw [parseLines_cons]
    cases hblank : line.all Text.isBlank with
    | true => exact hnext (.inl hblank)
    | false =>
      cases hline : Instruction.parse (String.ofList line) with
      | error cause => simp [refuses_refused hblank hline, eq_comm]
      | ok i => exact map_error_iff.trans (hnext (.inr ⟨i, Instruction.parse_ok_iff.1 hline⟩))

end

/-- **Listings are read according to their grammar.**  A line is read if and only if its words spell
an instruction, which is then the result.  A text is read if and only if all lines that are not
blank are, and the result has their instructions in order; otherwise the first line that is refused
is reported, with its number among all lines, from one on, and the reason why it is refused. -/
theorem parse_iff_spells :
    (∀ (line : String) (i : Instruction),
      Instruction.parse line = .ok i ↔ Instruction.Spells line.toList i) ∧
    (∀ (text : String) (code : Listing), parse text = .ok code ↔
      List.Forall₂ Instruction.Spells (written (Text.lines text.toList)) code) ∧
    ∀ (text : String) (e : ListingError), parse text = .error e ↔
      ∃ k cause, Refuses (Text.lines text.toList) k cause ∧ e = .unreadable (k + 1) cause := by
  refine ⟨fun line i => ?_, fun text code => parseLines_ok_iff, fun text e => ?_⟩
  · rw [← Instruction.parse_ok_iff, String.ofList_toList]
  · simp only [parse, parseLines_error_iff, Nat.add_comm 1]

-- the second line counts, and the colon makes the third one the definition of a label
example : parse "push +07\n\n b over:\n" = .error (.unreadable 3 (.badLabel "b over")) := by
  decide +kernel

end Listing

end ObjectLang
