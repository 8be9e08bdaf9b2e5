import Mathlib.Data.List.DropRight
import Mathlib.Tactic.Common

/-!
# Lines and words

`str.splitlines`, `str.strip` and `str.split` on lists of characters. A text that is written line by line, each line with a line
feed after it, is read as the lines each of them is split into: the first goes up to the first line boundary in it, and every
further boundary gives one more.
-/

namespace Ferm

/-- `c.isspace()`. -/
def isPySpace (c : Char) : Bool :=
  let n := c.toNat
  (9 ≤ n && n ≤ 13) || (0x1c ≤ n && n ≤ 0x20) || (0x2000 ≤ n && n ≤ 0x200a) ||
    [0x85, 0xa0, 0x1680, 0x2028, 0x2029, 0x202f, 0x205f, 0x3000].contains n

/-- A character `str.splitlines` splits at. -/
def isLineBoundary (c : Char) : Bool :=
  let n := c.toNat
  (10 ≤ n && n ≤ 13) || (0x1c ≤ n && n ≤ 0x1e) || [0x85, 0x2028, 0x2029].contains n

theorem isPySpace_of_isLineBoundary {c : Char} (h : isLineBoundary c = true) : isPySpace c = true := by
  simp only [isLineBoundary, isPySpace, List.contains_eq_mem, Bool.or_eq_true, Bool.and_eq_true, decide_eq_true_eq,
    List.mem_cons, List.not_mem_nil, or_false] at h ⊢
  omega

/-- The visible ASCII characters are no blanks. -/
theorem isPySpace_eq_false {c : Char} (h : 33 ≤ c.toNat ∧ c.toNat ≤ 126) : isPySpace c = false := by
  simp only [isPySpace, List.contains_eq_mem, Bool.or_eq_false_iff, Bool.and_eq_false_iff, decide_eq_false_iff_not,
    List.mem_cons, List.not_mem_nil, or_false]
  omega

/-- A test of a text's characters, one after the other. -/
theorem forall_eq_false {p : Char → Bool} {text : List Char} (h : text.all (fun c => !p c) = true) : ∀ c ∈ text, p c = false := by
  intro c hc
  have := List.all_eq_true.1 h c hc
  rwa [Bool.not_eq_true'] at this

/-! ## Lines -/

/-- The lines of a text after the beginning of a line. A line feed right after a carriage return ends no line. -/
def splitLinesFrom : Bool → List Char → List Char → List (List Char)
  | _, line, [] => if line = [] then [] else [line]
  | afterReturn, line, c :: cs =>
    if c = '\n' ∧ afterReturn then splitLinesFrom false line cs
    else if isLineBoundary c then line :: splitLinesFrom (c = '\r') [] cs
    else splitLinesFrom false (line ++ [c]) cs

/-- `text.splitlines()`. -/
def splitLines (text : List Char) : List (List Char) := splitLinesFrom false [] text

/-- A line up to the first boundary in it. -/
def firstLine (line : List Char) : List Char := line.takeWhile fun c => !isLineBoundary c

/-- What else a line that is written with a line feed after it is read as. -/
def furtherLines (line : List Char) : List (List Char) := (splitLines (line ++ ['\n'])).tail

theorem splitLinesFrom_append {afterReturn : Bool} {line : List Char} (h : afterReturn = true → line = [])
    (text rest : List Char) :
    splitLinesFrom afterReturn line (text ++ '\n' :: rest) =
      splitLinesFrom afterReturn line (text ++ ['\n']) ++ splitLines rest := by
  induction text generalizing afterReturn line with
  | nil =>
    cases afterReturn with
    | false => rfl
    | true =>
      obtain rfl := h rfl
      rfl
  | cons c text ih =>
    simp only [List.cons_append, splitLinesFrom]
    split
    · exact ih fun h => by cases h
    · split
      · exact congrArg _ (ih fun _ => rfl)
      · exact ih fun h => by cases h

theorem splitLinesFrom_line (line text : List Char) :
    ∃ further, splitLinesFrom false line (text ++ ['\n']) = (line ++ firstLine text) :: further := by
  induction text generalizing line with
  | nil =>
    rw [firstLine, List.takeWhile_nil, List.append_nil]
    exact ⟨[], rfl⟩
  | cons c text ih =>
    simp only [List.cons_append, splitLinesFrom, Bool.false_eq_true, and_false, if_false, firstLine, List.takeWhile_cons]
    split
    · rename_i hc
      rw [hc]
      simp only [Bool.not_true, Bool.false_eq_true, if_false, List.append_nil]
      exact ⟨_, rfl⟩
    · rename_i hc
      obtain ⟨further, h⟩ := ih (line ++ [c])
      rw [Bool.not_eq_true] at hc
      refine ⟨further, h.trans ?_⟩
      rw [hc, List.append_assoc]
      rfl

/-- What a written line is read as. -/
theorem splitLines_line (line : List Char) : splitLines (line ++ ['\n']) = firstLine line :: furtherLines line := by
  obtain ⟨further, h⟩ := splitLinesFrom_line [] line
  rw [furtherLines, splitLines, h]
  rfl

/-- What a text of written lines is read as. -/
theorem splitLines_lines (lines : List (List Char)) :
    splitLines (lines.flatMap fun line => line ++ ['\n']) = lines.flatMap fun line => firstLine line :: furtherLines line := by
  induction lines with
  | nil => rfl
  | cons line lines ih =>
    rw [List.flatMap_cons, List.flatMap_cons, List.append_assoc, List.singleton_append, splitLines,
      splitLinesFrom_append fun h => by cases h]
    exact congrArg₂ _ (splitLines_line line) ih

/-- A beginning without a boundary belongs to the first line. -/
theorem splitLinesFrom_plain {start : List Char} (h : ∀ c ∈ start, isLineBoundary c = false) (line text : List Char) :
    splitLinesFrom false line (start ++ text) = splitLinesFrom false (line ++ start) text := by
  induction start generalizing line with
  | nil => rw [List.nil_append, List.append_nil]
  | cons c start ih =>
    obtain ⟨hc, hstart⟩ := List.forall_mem_cons.1 h
    rw [List.cons_append, splitLinesFrom, if_neg (by simp), if_neg (by simp [hc]), ih hstart, List.append_assoc]
    rfl

theorem firstLine_append {start : List Char} (h : ∀ c ∈ start, isLineBoundary c = false) (text : List Char) :
    firstLine (start ++ text) = start ++ firstLine text :=
  List.takeWhile_append_of_pos fun c hc => by simp [h c hc]

theorem firstLine_eq_self {line : List Char} (h : ∀ c ∈ line, isLineBoundary c = false) : firstLine line = line :=
  List.takeWhile_eq_self_iff.2 fun c hc => by simp [h c hc]

/-- The tail of the lines does not depend on how the first one begins. -/
theorem tail_splitLinesFrom (line line' text : List Char) :
    (splitLinesFrom false line (text ++ ['\n'])).tail = (splitLinesFrom false line' (text ++ ['\n'])).tail := by
  induction text generalizing line line' with
  | nil => rfl
  | cons c text ih =>
    simp only [List.cons_append, splitLinesFrom, Bool.false_eq_true, and_false, if_false]
    split
    · rfl
    · exact ih _ _

theorem furtherLines_append {start : List Char} (h : ∀ c ∈ start, isLineBoundary c = false) (text : List Char) :
    furtherLines (start ++ text) = furtherLines text := by
  rw [furtherLines, furtherLines, splitLines, splitLines, List.append_assoc, splitLinesFrom_plain h]
  exact tail_splitLinesFrom _ _ text

theorem furtherLines_eq_nil {line : List Char} (h : ∀ c ∈ line, isLineBoundary c = false) : furtherLines line = [] := by
  rw [← List.append_nil line, furtherLines_append h]
  rfl

/-! ## Blanks and words -/

/-- `text.rstrip()`. -/
def pyRstrip (text : List Char) : List Char := text.rdropWhile isPySpace

/-- `text.strip()`. -/
def pyStrip (text : List Char) : List Char := pyRstrip (text.dropWhile isPySpace)

/-- `text.split()`. -/
def pyWords (text : List Char) : List (List Char) := (text.splitOnP isPySpace).filter fun word => !word.isEmpty

/-- A nonempty run of characters without a blank. -/
def IsWord (text : List Char) : Prop := text ≠ [] ∧ ∀ c ∈ text, isPySpace c = false

theorem IsWord.no_boundary {text : List Char} (h : IsWord text) : ∀ c ∈ text, isLineBoundary c = false := by
  intro c hc
  by_contra hb
  have := isPySpace_of_isLineBoundary (Bool.not_eq_false _ ▸ hb)
  rw [h.2 c hc] at this
  cases this

theorem IsWord.no_blank {text : List Char} (h : IsWord text) : ' ' ∉ text := fun hmem => by
  have := h.2 ' ' hmem
  revert this
  decide

/-- Blanks at the end do not reach a word before them. -/
theorem pyRstrip_append {word : List Char} (h : IsWord word) (start text : List Char) :
    pyRstrip (start ++ (word ++ text)) = start ++ (word ++ pyRstrip text) := by
  have hne : start ++ word ≠ [] := fun hnil => h.1 (List.append_eq_nil_iff.1 hnil).2
  have hlast : (start ++ word).getLast hne ∈ word := by
    rw [List.getLast_append_of_ne_nil hne h.1]
    exact List.getLast_mem h.1
  have hself : pyRstrip (start ++ word) = start ++ word := by
    rw [pyRstrip, List.rdropWhile_eq_self_iff]
    intro hne
    rw [h.2 _ hlast]
    exact Bool.false_ne_true
  rw [← List.append_assoc, ← List.append_assoc]
  induction text using List.reverseRecOn with
  | nil => rw [List.append_nil, hself, pyRstrip, List.rdropWhile_nil, List.append_nil]
  | append_singleton text c ih =>
    rw [← List.append_assoc, pyRstrip, pyRstrip, List.rdropWhile_concat, List.rdropWhile_concat]
    split
    · exact ih
    · rw [List.append_assoc]

/-- A text that begins without a blank only loses blanks after its last word. -/
theorem pyStrip_append {c : Char} (hc : isPySpace c = false) {word : List Char} (h : IsWord word) (start text : List Char) :
    pyStrip (c :: (start ++ (word ++ text))) = c :: (start ++ (word ++ pyRstrip text)) := by
  rw [pyStrip, List.dropWhile_cons, hc]
  exact pyRstrip_append h (c :: start) text

/-- What is left of a text that begins with a blank begins with it, or is empty. -/
theorem pyRstrip_cons (c : Char) (text : List Char) : pyRstrip (c :: text) = [] ∨ (pyRstrip (c :: text)).head? = some c := by
  obtain ⟨rest, h⟩ := List.rdropWhile_prefix isPySpace (l := c :: text)
  rw [pyRstrip]
  cases hs : (c :: text).rdropWhile isPySpace with
  | nil => exact .inl rfl
  | cons d ds =>
    rw [hs, List.cons_append, List.cons.injEq] at h
    rw [h.1]
    exact .inr rfl

theorem pyWords_cons {word : List Char} (h : IsWord word) {blank : Char} (hblank : isPySpace blank = true) (text : List Char) :
    pyWords (word ++ blank :: text) = word :: pyWords text := by
  rw [pyWords, List.splitOnP_append_cons_of_forall_mem h.2 _ hblank, List.filter_cons, if_pos]
  · rfl
  · simpa using h.1

theorem pyWords_word {word : List Char} (h : IsWord word) : pyWords word = [word] := by
  rw [pyWords, List.splitOnP_eq_singleton h.2, List.filter_cons, if_pos]
  · rfl
  · simpa using h.1

theorem mem_of_mem_splitOnP {p : Char → Bool} {text piece : List Char} (h : piece ∈ text.splitOnP p) {c : Char} (hc : c ∈ piece) :
    c ∈ text ∧ p c = false := by
  induction text generalizing piece with
  | nil =>
    rw [List.splitOnP_nil, List.mem_singleton] at h
    rw [h] at hc
    cases hc
  | cons d text ih =>
    rw [List.splitOnP_cons_eq_if_modifyHead] at h
    split at h
    · rcases List.mem_cons.1 h with rfl | h
      · cases hc
      · exact ⟨List.mem_cons_of_mem d (ih h hc).1, (ih h hc).2⟩
    · rename_i hd
      obtain ⟨first, pieces, hpieces⟩ := List.exists_cons_of_ne_nil (List.splitOnP_ne_nil p text)
      rw [hpieces, List.modifyHead_cons] at h
      rw [hpieces] at ih
      rcases List.mem_cons.1 h with rfl | h
      · rcases List.mem_cons.1 hc with rfl | hc
        · exact ⟨List.mem_cons_self, Bool.eq_false_iff.2 hd⟩
        · obtain ⟨hmem, hp⟩ := ih List.mem_cons_self hc
          exact ⟨List.mem_cons_of_mem d hmem, hp⟩
      · obtain ⟨hmem, hp⟩ := ih (List.mem_cons_of_mem first h) hc
        exact ⟨List.mem_cons_of_mem d hmem, hp⟩

theorem isWord_of_mem_pyWords {text word : List Char} (h : word ∈ pyWords text) : IsWord word ∧ ∀ c ∈ word, c ∈ text := by
  obtain ⟨hmem, hne⟩ := List.mem_filter.1 h
  refine ⟨⟨?_, fun c hc => (mem_of_mem_splitOnP hmem hc).2⟩, fun c hc => (mem_of_mem_splitOnP hmem hc).1⟩
  rintro rfl
  cases hne

theorem forall_mem_intercalate_text {α : Type} {p : α → Prop} {sep : List α} {parts : List (List α)} (hsep : ∀ c ∈ sep, p c)
    (h : ∀ part ∈ parts, ∀ c ∈ part, p c) : ∀ c ∈ List.intercalate sep parts, p c := by
  induction parts with
  | nil =>
    intro c hc
    cases hc
  | cons part parts ih =>
    have hrest := ih fun q hq => h q (List.mem_cons_of_mem part hq)
    cases parts with
    | nil =>
      rw [List.intercalate_singleton]
      exact h part List.mem_cons_self
    | cons q parts =>
      intro c hc
      rw [List.intercalate_cons_cons, List.mem_append, List.mem_append] at hc
      rcases hc with (hc | hc) | hc
      · exact h part List.mem_cons_self c hc
      · exact hsep c hc
      · exact hrest c hc

theorem forall_mem_intercalate {p : Char → Prop} {sep : Char} {parts : List (List Char)} (hsep : p sep)
    (h : ∀ part ∈ parts, ∀ c ∈ part, p c) : ∀ c ∈ List.intercalate [sep] parts, p c :=
  forall_mem_intercalate_text (List.forall_mem_singleton.2 hsep) h

/-- Words with blanks between them are the words of the text. -/
theorem pyWords_intercalate {words : List (List Char)} (h : ∀ word ∈ words, IsWord word) : pyWords (List.intercalate [' '] words) = words := by
  induction words with
  | nil => rfl
  | cons word words ih =>
    obtain ⟨hword, hwords⟩ := List.forall_mem_cons.1 h
    cases words with
    | nil =>
      rw [List.intercalate_singleton]
      exact pyWords_word hword
    | cons next words =>
      rw [List.intercalate_cons_cons, List.append_assoc]
      exact (pyWords_cons hword (by decide) _).trans (congrArg (word :: ·) (ih hwords))

/-! ## Trimmed texts -/

/-- A text without blanks at its ends. -/
structure Trimmed (text : List Char) : Prop where
  head : ∀ c ∈ text.head?, isPySpace c = false
  last : ∀ c ∈ text.getLast?, isPySpace c = false

theorem IsWord.trimmed {text : List Char} (h : IsWord text) : Trimmed text :=
  ⟨fun c hc => h.2 c (List.mem_of_mem_head? hc), fun c hc => h.2 c (List.mem_of_mem_getLast? hc)⟩

theorem Trimmed.pyStrip_eq {text : List Char} (h : Trimmed text) : pyStrip text = text := by
  cases text with
  | nil => rfl
  | cons c text =>
    rw [pyStrip, List.dropWhile_cons, h.head c rfl, if_neg Bool.false_ne_true, pyRstrip, List.rdropWhile_eq_self_iff]
    intro hne
    rw [h.last _ (List.getLast?_eq_some_getLast hne)]
    exact Bool.false_ne_true

theorem pyStrip_cons_blank {c : Char} (h : isPySpace c = true) (text : List Char) : pyStrip (c :: text) = pyStrip text := by
  rw [pyStrip, List.dropWhile_cons, if_pos h, pyStrip]

theorem dropWhile_append_blanks {blanks : List Char} (h : ∀ c ∈ blanks, isPySpace c = true) (text : List Char) :
    (blanks ++ text).dropWhile isPySpace = text.dropWhile isPySpace := by
  rw [List.dropWhile_append, if_pos]
  rw [List.dropWhile_eq_nil_iff.2 h]
  rfl

theorem pyStrip_append_blanks {blanks : List Char} (h : ∀ c ∈ blanks, isPySpace c = true) (text : List Char) :
    pyStrip (blanks ++ text) = pyStrip text := by
  rw [pyStrip, dropWhile_append_blanks h, pyStrip]

theorem pyStrip_append_blank {c : Char} (h : isPySpace c = true) (text : List Char) : pyStrip (text ++ [c]) = pyStrip text := by
  rw [pyStrip, pyStrip, List.dropWhile_append]
  split
  · rename_i hnil
    rw [List.isEmpty_iff] at hnil
    rw [hnil, List.dropWhile_cons, if_pos h]
    rfl
  · rw [pyRstrip, List.rdropWhile_concat, if_pos h, pyRstrip]

/-- A text that begins with one trimmed text and ends with another is trimmed. -/
theorem Trimmed.append {a b : List Char} (ha : Trimmed a) (hb : Trimmed b) (hna : a ≠ []) (hnb : b ≠ []) (mid : List Char) :
    Trimmed (a ++ (mid ++ b)) := by
  constructor
  · intro c hc
    rw [List.head?_append_of_ne_nil _ hna] at hc
    exact ha.head c hc
  · intro c hc
    rw [← List.append_assoc, List.getLast?_append_of_ne_nil _ hnb] at hc
    exact hb.last c hc

/-- Trimmed texts with blanks between them are trimmed. -/
theorem trimmed_intercalate {parts : List (List Char)} (h : ∀ part ∈ parts, Trimmed part ∧ part ≠ []) :
    Trimmed (List.intercalate [' '] parts) := by
  induction parts with
  | nil => exact ⟨by simp, by simp⟩
  | cons part parts ih =>
    obtain ⟨⟨hpart, hne⟩, hparts⟩ := List.forall_mem_cons.1 h
    cases parts with
    | nil =>
      rw [List.intercalate_singleton]
      exact hpart
    | cons next parts =>
      have hnext : List.intercalate [' '] (next :: parts) ≠ [] := by
        have hne' : next ≠ [] := (hparts next List.mem_cons_self).2
        cases parts with
        | nil => rwa [List.intercalate_singleton]
        | cons => rw [List.intercalate_cons_cons]; simp [hne']
      rw [List.intercalate_cons_cons, List.append_assoc]
      exact hpart.append (ih hparts) hne hnext [' ']

/-- A trimmed text between blanks. -/
theorem Trimmed.pyStrip_between {text : List Char} (h : Trimmed text) : pyStrip (' ' :: (text ++ [' '])) = text := by
  rw [pyStrip_cons_blank (by decide), pyStrip_append_blank (by decide), h.pyStrip_eq]

/-! ## Words in front of a text -/

theorem pyWords_cons_blank {c : Char} (h : isPySpace c = true) (text : List Char) : pyWords (c :: text) = pyWords text := by
  rw [pyWords, List.splitOnP_cons_eq_if_modifyHead, if_pos h]
  rfl

/-- Words with blanks between them and a blank after them come before the words of what follows. -/
theorem pyWords_intercalate_append {words : List (List Char)} (h : ∀ word ∈ words, IsWord word) (text : List Char) :
    pyWords (List.intercalate [' '] words ++ ' ' :: text) = words ++ pyWords text := by
  induction words with
  | nil => exact pyWords_cons_blank (by decide) text
  | cons word words ih =>
    obtain ⟨hword, hwords⟩ := List.forall_mem_cons.1 h
    cases words with
    | nil =>
      rw [List.intercalate_singleton]
      exact pyWords_cons hword (by decide) text
    | cons next words =>
      rw [List.intercalate_cons_cons, List.append_assoc, List.append_assoc]
      exact (pyWords_cons hword (by decide) _).trans (congrArg (word :: ·) (ih hwords))

/-- A nonempty trimmed text has a word. -/
theorem pyWords_ne_nil {text : List Char} (h : Trimmed text) (hne : text ≠ []) : pyWords text ≠ [] := by
  obtain ⟨c, rest, rfl⟩ := List.exists_cons_of_ne_nil hne
  rw [pyWords, List.splitOnP_cons_eq_if_modifyHead, h.head c rfl, if_neg Bool.false_ne_true]
  obtain ⟨first, pieces, hpieces⟩ := List.exists_cons_of_ne_nil (List.splitOnP_ne_nil isPySpace rest)
  rw [hpieces, List.modifyHead_cons, List.filter_cons]
  simp

example : splitLines "a\r\nb\x0bc\n".toList = ["a".toList, "b".toList, "c".toList] := by decide

end Ferm
