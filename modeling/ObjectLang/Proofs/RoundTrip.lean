import ObjectLang.Machine.Listing
import Mathlib.Data.List.Basic

/-!
# Reading back what has been written

A listing is written one instruction a line, and an instruction as one or two words or as a name
with a colon.  Nothing of this is lost if the labels are names: a label with a blank or a colon in
it, or with a digit at its start, would be taken for something else, and everything else is read
back as it was (`Listing.parse_text`).  Whatever is read has names for labels, so these are exactly
the listings that are read back (`Listing.parse_text_iff`).

What is written are solid words: they are not empty, and have neither blanks nor colons in them.  So
a line falls apart into the words it has been made of (`Instruction.parseTrimmed_word`,
`Instruction.parseTrimmed_pair`), and the text into its lines (`Text.lines_flatMap`).
-/

namespace ObjectLang

namespace Text

/-! ### Solid words -/

/-- A word that stays in one piece, and that no label definition ends with. -/
structure Solid (w : List Char) : Prop where
  ne_nil : w ≠ []
  char : ∀ c ∈ w, isBlank c = false ∧ c ≠ ':'

theorem isAlpha_iff {c : Char} : c.isAlpha = true ↔
    65 ≤ c.toNat ∧ c.toNat ≤ 90 ∨ 97 ≤ c.toNat ∧ c.toNat ≤ 122 := by
  delta Char.isAlpha Char.isUpper Char.isLower
  simp [UInt32.le_iff_toNat_le]

theorem solid_char_of_isAlphanum {c : Char} (h : c.isAlphanum = true) :
    isBlank c = false ∧ c ≠ ':' := by
  simp only [Char.isAlphanum, Bool.or_eq_true, isAlpha_iff, Char.isDigit_iff_toNat,
    Char.reduceToNat] at h
  constructor
  · simp only [isBlank, blankRanges, List.any_cons, List.any_nil, Bool.or_false,
      Bool.or_eq_false_iff, decide_eq_false_iff_not]
    omega
  · rintro rfl
    revert h
    decide

theorem isDigit_of_mem_repr {n : Nat} {c : Char} (h : c ∈ (Nat.repr n).toList) :
    c.isDigit = true := by
  rw [Nat.repr_eq_ofList_toDigits, String.toList_ofList] at h
  exact Nat.isDigit_of_mem_toDigits (by decide) (by decide) h

theorem solid_digits (n : Nat) : Solid (Nat.repr n).toList where
  ne_nil := by simp [Nat.repr_eq_ofList_toDigits, Nat.toDigits_ne_nil]
  char c hc := solid_char_of_isAlphanum (by simp [Char.isAlphanum, isDigit_of_mem_repr hc])

theorem solid_writeWord (w : Int64) : Solid (writeWord w).toList := by
  unfold writeWord writeInt
  split
  · exact solid_digits _
  · rename_i n _
    have hdigits := solid_digits (n + 1)
    refine ⟨by simp, fun c hc => ?_⟩
    rw [String.toList_append] at hc
    rcases List.mem_append.1 hc with hc | hc
    · obtain rfl : c = '-' := by simpa using hc
      decide
    · exact hdigits.char c hc

/-! ### Words and lines -/

theorem words_solid {w : List Char} (hw : Solid w) : words w = [w] := by
  rw [words, List.splitOnP_eq_singleton fun c hc => (hw.char c hc).1]
  simp [hw.ne_nil]

theorem words_pair {w v : List Char} (hw : Solid w) (hv : Solid v) :
    words (w ++ ' ' :: v) = [w, v] := by
  have hblank : isBlank ' ' = true := by decide
  rw [words, List.splitOnP_append_cons _ _ hblank, List.filter_append]
  exact congrArg₂ (· ++ ·) (words_solid hw) (words_solid hv)

/-- A line that is read as it is: not empty, no blanks at its ends, and no line feed inside. -/
structure IsLine (s : List Char) : Prop where
  ne_nil : s ≠ []
  head : ∀ c ∈ s.head?, isBlank c = false
  last : ∀ c ∈ s.getLast?, isBlank c = false
  feed : '\n' ∉ s

theorem dropWhile_isBlank {s : List Char} (h : ∀ c ∈ s.head?, isBlank c = false) :
    s.dropWhile isBlank = s := by
  cases s with
  | nil => rfl
  | cons c s => exact List.dropWhile_cons_of_neg (by simp [h c rfl])

theorem IsLine.trim {s : List Char} (h : IsLine s) : trim s = s := by
  rw [Text.trim, dropWhile_isBlank h.head, dropWhile_isBlank, List.reverse_reverse]
  rw [List.head?_reverse]
  exact h.last

theorem IsLine.dropReturn {s : List Char} (h : IsLine s) : dropReturn s = s := by
  refine if_neg fun hlast => ?_
  have hblank := h.last '\r' hlast
  revert hblank
  decide

/-- Lines that are ended one by one are the lines of the text. -/
theorem lines_flatMap {ss : List (List Char)} (h : ∀ s ∈ ss, IsLine s) :
    lines (ss.flatMap fun s => s ++ ['\n']) = ss := by
  -- after the last line there is an empty piece, which is no line
  have hsplit : (ss.flatMap fun s => s ++ ['\n']).splitOnP (· == '\n') = ss ++ [[]] := by
    induction ss with
    | nil => rfl
    | cons s ss ih =>
      rw [List.forall_mem_cons] at h
      have hfeed : ∀ c ∈ s, (c == '\n') = false := by
        intro c hc
        have hne : c ≠ '\n' := fun heq => h.1.feed (heq ▸ hc)
        simpa using hne
      rw [List.flatMap_cons, List.append_assoc, List.singleton_append,
        List.splitOnP_append_cons_of_forall_mem hfeed _ rfl, ih h.2, List.cons_append]
  rw [lines, hsplit]
  clear hsplit
  induction ss with
  | nil => rfl
  | cons s ss ih =>
    rw [List.forall_mem_cons] at h
    obtain ⟨t, ts, hts⟩ : ∃ t ts, ss ++ [[]] = t :: ts := by cases ss <;> simp
    rw [hts] at ih
    rw [List.cons_append, hts, lines.go, h.1.dropReturn, ih h.2]
    exact fun hnil => by cases hnil

theorem Solid.isLine {w : List Char} (h : Solid w) : IsLine w where
  ne_nil := h.ne_nil
  head c hc := (h.char c (List.mem_of_mem_head? hc)).1
  last c hc := (h.char c (List.mem_of_getLast? hc)).1
  feed hfeed := by
    have hblank := (h.char _ hfeed).1
    revert hblank
    decide

/-- A line goes on up to a character that is not blank. -/
theorem IsLine.append {a b : List Char} (h : IsLine a) (hb : b ≠ [])
    (hlast : ∀ c ∈ b.getLast?, isBlank c = false) (hfeed : '\n' ∉ b) : IsLine (a ++ b) where
  ne_nil := by simp [h.ne_nil]
  head c hc := by
    obtain ⟨d, a, rfl⟩ := List.exists_cons_of_ne_nil h.ne_nil
    exact h.head c hc
  last c hc := by
    rw [List.getLast?_append_of_ne_nil a hb] at hc
    exact hlast c hc
  feed hmem := by
    rcases List.mem_append.1 hmem with hmem | hmem
    · exact h.feed hmem
    · exact hfeed hmem

/-! ### Numbers -/

theorem readNat?_repr (n : Nat) : readNat? (Nat.repr n).toList = some n := by
  rw [readNat?, if_pos]
  · simp [Nat.repr_eq_ofList_toDigits]
  · have hdigits : (Nat.repr n).toList.all Char.isDigit = true :=
      List.all_eq_true.2 fun c hc => isDigit_of_mem_repr hc
    have hne := (solid_digits n).ne_nil
    rw [hdigits, Bool.and_true, Bool.not_eq_true', List.isEmpty_eq_false_iff]
    exact hne

theorem readInt?_of_ne {s : List Char} (hminus : s.head? ≠ some '-') (hplus : s.head? ≠ some '+') :
    readInt? s = (readNat? s).map fun n => (n : Int) := by
  unfold readInt?
  split
  · exact absurd rfl hminus
  · exact absurd rfl hplus
  · rfl

theorem readInt?_writeInt (n : Int) : readInt? (writeInt n).toList = some n := by
  cases n with
  | ofNat n =>
    -- digits do not start with a sign
    have hsign : ∀ c : Char, c.isDigit = false → (Nat.repr n).toList.head? ≠ some c := by
      intro c hc hhead
      have hdigit := isDigit_of_mem_repr (List.mem_of_mem_head? hhead)
      exact Bool.false_ne_true (hc.symm.trans hdigit)
    rw [writeInt, readInt?_of_ne (hsign _ (by decide)) (hsign _ (by decide)), readNat?_repr]
    rfl
  | negSucc n =>
    rw [writeInt, String.toList_append]
    show (readNat? (Nat.repr (n + 1)).toList).map (fun n => -(n : Int)) = _
    rw [readNat?_repr]
    rfl

theorem readWord?_writeWord (w : Int64) : readWord? (writeWord w).toList = some w := by
  rw [readWord?, writeWord, readInt?_writeInt, Option.bind_some, Int64.ofInt_toInt,
    if_pos ⟨w.minValue_le_toInt, w.toInt_le⟩]

end Text

/-! ### Names -/

theorem isName_char {w : List Char} (h : isName w = true) :
    ∀ c ∈ w, c.isAlphanum = true ∨ c = '_' := by
  cases w with
  | nil => cases h
  | cons c w =>
    simp only [isName, Bool.and_eq_true, Bool.or_eq_true, beq_iff_eq, List.all_eq_true] at h
    rw [List.forall_mem_cons]
    refine ⟨?_, h.2⟩
    rcases h.1 with hc | hc
    · exact .inl (by simp [Char.isAlphanum, hc])
    · exact .inr hc

theorem solid_of_isName {w : List Char} (h : isName w = true) : Text.Solid w where
  ne_nil := by
    rintro rfl
    cases h
  char c hc := by
    rcases isName_char h c hc with halnum | rfl
    · exact Text.solid_char_of_isAlphanum halnum
    · decide

theorem readLabel_of_isName {l : Label} (h : isName l.toList = true) :
    readLabel l.toList = .ok l := by
  rw [readLabel, if_pos h, String.ofList_toList]

/-- A name does not start as a number does. -/
theorem readWord?_of_isName {w : List Char} (h : isName w = true) : Text.readWord? w = none := by
  cases w with
  | nil => cases h
  | cons c w =>
    simp only [isName, Bool.and_eq_true, Bool.or_eq_true, beq_iff_eq] at h
    have hdigit : c.isDigit = false := by
      rcases h.1 with halpha | rfl
      · rw [Text.isAlpha_iff] at halpha
        simp only [Bool.eq_false_iff, ne_eq, Char.isDigit_iff_toNat, Char.reduceToNat]
        omega
      · decide
    -- the first character is no sign either, since signs are no letters
    have hsign : ∀ d : Char, d.isAlpha = false → d ≠ '_' → (c :: w).head? ≠ some d := by
      intro d halpha hd hhead
      obtain rfl := Option.some.inj hhead
      rcases h.1 with hc | hc
      · exact Bool.false_ne_true (halpha.symm.trans hc)
      · exact hd hc
    have hread : Text.readNat? (c :: w) = none := by simp [Text.readNat?, hdigit]
    rw [Text.readWord?, Text.readInt?_of_ne (hsign _ (by decide) (by decide))
      (hsign _ (by decide) (by decide)), hread]
    rfl

/-! ### Instructions -/

namespace Instruction

theorem parseTrimmed_label (w : List Char) :
    parseTrimmed (w ++ [':']) = (readLabel w).map .label := by
  rw [parseTrimmed, if_pos (by simp), List.dropLast_concat]

/-- A line that ends in a solid word is no label definition. -/
theorem getLast?_ne_colon {v : List Char} (hv : Text.Solid v) (w : List Char) :
    (w ++ v).getLast? ≠ some ':' := by
  rw [List.getLast?_append_of_ne_nil w hv.ne_nil]
  exact fun hlast => (hv.char _ (List.mem_of_getLast? hlast)).2 rfl

theorem parseTrimmed_word {w : List Char} (hw : Text.Solid w) :
    parseTrimmed w = (Op.read (String.ofList w) none).map .op := by
  have hlast : w.getLast? ≠ some ':' := getLast?_ne_colon hw []
  rw [parseTrimmed, if_neg hlast, Text.words_solid hw]

theorem parseTrimmed_pair {w v : List Char} (hw : Text.Solid w) (hv : Text.Solid v) :
    parseTrimmed (w ++ ' ' :: v) = (Op.read (String.ofList w) (some v)).map .op := by
  have hlast : (w ++ ' ' :: v).getLast? ≠ some ':' := by
    rw [List.append_cons]
    exact getLast?_ne_colon hv _
  rw [parseTrimmed, if_neg hlast, Text.words_pair hw hv]

end Instruction

namespace Op

/-- The word after the mnemonic. -/
def operand? : Op Label → Option String
  | push n => some (Text.writeWord n)
  | pushTarget l | beq l | bleq l | b l => some l
  | _ => none

theorem text_eq (o : Op Label) :
    o.text = o.operand?.elim o.mnemonic fun operand => o.mnemonic ++ " " ++ operand := by
  cases o <;> rfl

theorem isName_mnemonic (o : Op Label) : isName o.mnemonic.toList = true := by
  cases o <;> simp only [mnemonic] <;> decide

theorem solid_operand {o : Op Label} (h : ∀ l, o.target? = some l → isName l.toList = true)
    {operand : String} (ho : o.operand? = some operand) : Text.Solid operand.toList := by
  cases o with
  | push n =>
    obtain rfl := Option.some.inj ho
    exact Text.solid_writeWord n
  | pushTarget l | beq l | bleq l | b l =>
    obtain rfl := Option.some.inj ho
    exact solid_of_isName (h _ rfl)
  | _ => cases ho

/-- Mnemonic and operand give the operation. -/
theorem read_mnemonic {o : Op Label} (h : ∀ l, o.target? = some l → isName l.toList = true) :
    read o.mnemonic (o.operand?.map String.toList) = .ok o := by
  cases o with
  | push n =>
    show readPush (Text.writeWord n).toList = _
    rw [readPush, Text.readWord?_writeWord]
  | pushTarget l =>
    show readPush l.toList = _
    rw [readPush, readWord?_of_isName (h l rfl), readLabel_of_isName (h l rfl)]
    rfl
  | beq l | bleq l | b l =>
    have hlabel := readLabel_of_isName (h l rfl)
    simp [read, mnemonic, operand?, branch?, hlabel, Except.map]
  | _ => rfl

end Op

namespace Instruction

/-- The labels that an instruction mentions are names. -/
def Readable : Instruction → Prop
  | op o => ∀ l, o.target? = some l → isName l.toList = true
  | label l => isName l.toList = true

theorem isLine_text {i : Instruction} (h : i.Readable) : Text.IsLine i.text.toList := by
  cases i with
  | label l =>
    rw [text, String.toList_append]
    refine (solid_of_isName h).isLine.append (List.cons_ne_nil ':' []) (fun c hc => ?_) (by decide)
    obtain rfl : ':' = c := Option.some.inj hc
    decide
  | op o =>
    have hmnemonic := (solid_of_isName o.isName_mnemonic).isLine
    rw [text, o.text_eq]
    cases ho : o.operand? with
    | none => exact hmnemonic
    | some operand =>
      have hoperand := (Op.solid_operand h ho).isLine
      rw [Option.elim_some, String.toList_append, String.toList_append, List.append_assoc]
      refine hmnemonic.append (by simp) ?_ ?_
      · rw [List.getLast?_append_of_ne_nil _ hoperand.ne_nil]
        exact hoperand.last
      · simpa using hoperand.feed

/-- An instruction is read as it has been written. -/
theorem parseTrimmed_text {i : Instruction} (h : i.Readable) :
    parseTrimmed i.text.toList = .ok i := by
  cases i with
  | label l =>
    rw [text, String.toList_append]
    show parseTrimmed (l.toList ++ [':']) = _
    rw [parseTrimmed_label, readLabel_of_isName h]
    rfl
  | op o =>
    have hmnemonic := solid_of_isName o.isName_mnemonic
    have hread := Op.read_mnemonic h
    rw [text, o.text_eq]
    cases ho : o.operand? with
    | none =>
      rw [ho] at hread
      rw [Option.elim_none, parseTrimmed_word hmnemonic, String.ofList_toList]
      exact congrArg (Except.map op) hread
    | some operand =>
      rw [ho] at hread
      rw [Option.elim_some, String.toList_append, String.toList_append, List.append_assoc]
      show parseTrimmed (o.mnemonic.toList ++ ' ' :: operand.toList) = _
      rw [parseTrimmed_pair hmnemonic (Op.solid_operand h ho), String.ofList_toList]
      exact congrArg (Except.map op) hread

end Instruction

/-! ### Listings -/

namespace Listing

theorem parseLines_text {code : Listing} (h : ∀ i ∈ code, i.Readable) (n : Nat) :
    parseLines n (code.map fun i => i.text.toList) = .ok code := by
  induction code generalizing n with
  | nil => rfl
  | cons i code ih =>
    rw [List.forall_mem_cons] at h
    have hline := Instruction.isLine_text h.1
    have hne : i.text.toList.isEmpty = false := by simpa using hline.ne_nil
    simp only [List.map_cons, parseLines, hline.trim, hne, Instruction.parseTrimmed_text h.1,
      ih h.2]
    rfl

/-- **A listing whose labels are names is read as it has been written.** -/
theorem parse_text {code : Listing} (h : ∀ i ∈ code, i.Readable) : parse code.text = .ok code := by
  have hlines : code.text.toList =
      (code.map fun i => i.text.toList).flatMap fun s => s ++ ['\n'] := by
    rw [text, String.toList_join, List.flatMap_map, List.flatMap_map]
    simp
  rw [parse, hlines, Text.lines_flatMap, parseLines_text h]
  intro s hs
  obtain ⟨i, hi, rfl⟩ := List.mem_map.1 hs
  exact Instruction.isLine_text (h i hi)

end Listing

/-! ### What can be read -/

/-- An ASCII letter. -/
def IsLetter (c : Char) : Prop := 'A' ≤ c ∧ c ≤ 'Z' ∨ 'a' ≤ c ∧ c ≤ 'z'

/-- A valid name of a label: a letter or an underscore, and then letters, digits and
underscores. -/
def Label.IsName (l : Label) : Prop :=
  ∃ c cs, l.toList = c :: cs ∧ (IsLetter c ∨ c = '_') ∧
    ∀ d ∈ cs, IsLetter d ∨ '0' ≤ d ∧ d ≤ '9' ∨ d = '_'

theorem isLetter_iff {c : Char} : IsLetter c ↔ c.isAlpha = true := by
  rw [Text.isAlpha_iff]
  exact Iff.rfl

theorem isName_iff {l : Label} : isName l.toList = true ↔ l.IsName := by
  have hdigit : ∀ d : Char, d.isDigit = true ↔ '0' ≤ d ∧ d ≤ '9' := fun d => by
    rw [Char.isDigit_iff_toNat]
    exact Iff.rfl
  rw [Label.IsName]
  cases l.toList with
  | nil => simp [isName]
  | cons c cs =>
    simp only [isName, Bool.and_eq_true, Bool.or_eq_true, beq_iff_eq, List.all_eq_true,
      Char.isAlphanum, isLetter_iff, ← hdigit, List.cons.injEq]
    constructor
    · rintro ⟨hc, hcs⟩
      exact ⟨c, cs, ⟨rfl, rfl⟩, hc, fun d hd => or_assoc.1 (hcs d hd)⟩
    · rintro ⟨_, _, ⟨rfl, rfl⟩, hc, hcs⟩
      exact ⟨hc, fun d hd => or_assoc.2 (hcs d hd)⟩

theorem isName_of_readLabel {word : List Char} {l : Label} (h : readLabel word = .ok l) :
    isName l.toList = true := by
  unfold readLabel at h
  split at h
  · rename_i hname
    cases h
    rwa [String.toList_ofList]
  · cases h

/-- A map over an outcome succeeds where the outcome does. -/
theorem map_ok_iff {ε α β : Type} {x : Except ε α} {f : α → β} {b : β} :
    x.map f = .ok b ↔ ∃ a, x = .ok a ∧ f a = b := by
  cases x <;> simp [Except.map]

theorem Op.isName_of_readPush {operand : List Char} {o : Op Label} (h : readPush operand = .ok o)
    {l : Label} (hl : o.target? = some l) : isName l.toList = true := by
  unfold readPush at h
  split at h
  · cases h
    cases hl
  · obtain ⟨l', hread, rfl⟩ := map_ok_iff.1 h
    cases hl
    exact isName_of_readLabel hread

/-- What has been read refers to names only. -/
theorem Op.isName_of_read {mnemonic : String} {operand? : Option (List Char)} {o : Op Label}
    (h : read mnemonic operand? = .ok o) {l : Label} (hl : o.target? = some l) :
    isName l.toList = true := by
  unfold read at h
  split at h
  · cases operand? with
    | none => cases h
    | some operand => exact isName_of_readPush h hl
  · split at h
    · rename_i branch hbranch
      cases operand? with
      | none => cases h
      | some operand =>
        obtain ⟨l', hread, rfl⟩ := map_ok_iff.1 h
        have hmem : branch ∈ [beq, bleq, b] := List.mem_of_find?_eq_some hbranch
        have htarget : (branch l').target? = some l' := by
          simp only [List.mem_cons, List.not_mem_nil, or_false] at hmem
          rcases hmem with rfl | rfl | rfl <;> rfl
        cases htarget.symm.trans hl
        exact isName_of_readLabel hread
    · split at h
      · cases h
      · rename_i op hop
        cases h
        -- an operation without operands has no target
        have hplain : ∀ op ∈ (plain : List (Op Label)), op.target? = none := by
          simp [plain, target?]
        rw [hplain o (List.mem_of_find?_eq_some hop)] at hl
        cases hl
      · cases h

theorem Instruction.readable_of_parseTrimmed {line : List Char} {i : Instruction}
    (h : parseTrimmed line = .ok i) : i.Readable := by
  have hop : ∀ {mnemonic operand?},
      (Op.read mnemonic operand?).map Instruction.op = .ok i → i.Readable := by
    intro mnemonic operand? hread
    obtain ⟨o, ho, rfl⟩ := map_ok_iff.1 hread
    exact fun l hl => Op.isName_of_read ho hl
  unfold parseTrimmed at h
  split at h
  · obtain ⟨l, hl, rfl⟩ := map_ok_iff.1 h
    exact isName_of_readLabel hl
  · split at h
    · cases h
    · exact hop h
    · exact hop h
    · cases h

namespace Listing

theorem readable_of_parseLines {n : Nat} {lines : List (List Char)} {code : Listing}
    (h : parseLines n lines = .ok code) : ∀ i ∈ code, i.Readable := by
  induction lines generalizing n code with
  | nil =>
    cases h
    simp
  | cons line lines ih =>
    simp only [parseLines] at h
    split at h
    · exact ih h
    · split at h
      · cases h
      · rename_i i hi
        obtain ⟨rest, hrest, rfl⟩ := map_ok_iff.1 h
        exact List.forall_mem_cons.2 ⟨Instruction.readable_of_parseTrimmed hi, ih hrest⟩

/-- The label occurs in the listing: it is defined, branched to or pushed. -/
def Mentions (code : Listing) (l : Label) : Prop :=
  .label l ∈ code ∨ ∃ i ∈ code, i.target? = some l

theorem readable_iff {code : Listing} :
    (∀ i ∈ code, i.Readable) ↔ ∀ l, code.Mentions l → l.IsName := by
  constructor
  · rintro h l (hl | ⟨i, hi, hl⟩)
    · exact isName_iff.1 (h _ hl)
    · cases i with
      | op o => exact isName_iff.1 (h _ hi l hl)
      | label m => cases hl
  · intro h i hi
    cases i with
    | op o => exact fun l hl => isName_iff.2 (h l (.inr ⟨_, hi, hl⟩))
    | label l => exact isName_iff.2 (h l (.inl hi))

/-- **A listing is read back as it is if and only if all labels in it are names**, and so is every
listing that has itself been read. -/
theorem parse_text_iff (code : Listing) :
    (parse code.text = .ok code ↔ ∀ l, code.Mentions l → l.IsName) ∧
      ∀ text, parse text = .ok code → parse code.text = .ok code := by
  have hread : ∀ text, parse text = .ok code → ∀ i ∈ code, i.Readable := fun text h =>
    readable_of_parseLines h
  refine ⟨⟨fun h => readable_iff.1 (hread _ h), fun h => parse_text (readable_iff.2 h)⟩, ?_⟩
  exact fun text h => parse_text (hread text h)

/-- A text with blanks, a sign, leading zeros and a mnemonic as a label; and a label that would be
taken for a number. -/
theorem parse_text_iff_spaced :
    (∃ code, parse "\t push +007\r\n\nb:\nbeq  b" = .ok code ∧
      code.text = "push 7\nb:\nbeq b\n" ∧ parse code.text = .ok code) ∧
    parse (text [.op (.pushTarget "12")]) ≠ .ok [.op (.pushTarget "12")] := by
  refine ⟨⟨[.op (.push 7), .label "b", .op (.beq "b")], ?_⟩, ?_⟩
  · have hparse : parse "\t push +007\r\n\nb:\nbeq  b" =
        .ok [.op (.push 7), .label "b", .op (.beq "b")] := by decide +kernel
    exact ⟨hparse, by decide +kernel, (parse_text_iff _).2 _ hparse⟩
  · intro h
    obtain ⟨c, cs, hl, hc, -⟩ := (parse_text_iff _).1.1 h "12" (.inr ⟨_, List.mem_cons_self, rfl⟩)
    have hdigit : c = '1' := (List.cons.inj hl).1.symm
    subst hdigit
    revert hc
    rw [isLetter_iff]
    decide

end Listing

end ObjectLang
