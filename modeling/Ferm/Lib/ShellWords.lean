import Mathlib.Data.List.Basic
import Mathlib.Tactic.Common

/-!
# Words of a POSIX shell

How a shell reads the words of a simple command, as far as it reads them literally: blanks separate words, quotes and backslashes
are removed. A text in which the shell would expand, match file names, begin a comment or end the command is not read.
-/

namespace Ferm

/-- Where in a word the shell is: outside quotes, behind a backslash there, between single or double quotes, or behind a backslash
between double quotes. -/
inductive ShMode where
  | unquoted
  | escaped
  | single
  | double
  | doubleEscaped
  deriving DecidableEq, Repr

/-- The words that are complete, and the word that has begun. -/
structure ShState where
  words : List (List Char)
  word : Option (List Char)
  mode : ShMode
  deriving DecidableEq, Repr

/-- What begins an expansion between double quotes: parameters, arithmetic, and commands. -/
def isShExpansion (c : Char) : Bool := c = '$' || c = Char.ofNat 0x60

/-- What separates words. -/
def isShBlank (c : Char) : Bool := c = ' ' || c = '\t'

/-- The characters of the operators; a line feed ends the command. -/
def isShOperator (c : Char) : Bool := "|&;<>()\n".toList.contains c

/-- What makes an unquoted word a pattern for file names. -/
def isShPattern (c : Char) : Bool := c = '*' || c = '?' || c = '['

/-- What stands for more than itself at the start of an unquoted word: a comment, and a home directory. -/
def isShLeading (c : Char) : Bool := c = '#' || c = '~'

/-- What a backslash between double quotes takes from the next character. -/
def isShEscapable (c : Char) : Bool := isShExpansion c || c = '"' || c = '\\'

namespace ShState

/-- Between words. -/
def between (words : List (List Char)) : ShState := ⟨words, none, .unquoted⟩

/-- In a word, outside quotes. -/
def within (words : List (List Char)) (word : List Char) : ShState := ⟨words, some word, .unquoted⟩

/-- More of the word, which begins here if none has. -/
def put (s : ShState) (text : List Char) (mode : ShMode) : ShState := ⟨s.words, some (s.word.getD [] ++ text), mode⟩

/-- The end of the word, if one has begun. -/
def close (s : ShState) : ShState := between (s.words ++ s.word.toList)

/-- Read one character. -/
def step (s : ShState) (c : Char) : Option ShState :=
  match s.mode with
  | .unquoted =>
    if isShBlank c then some s.close
    else if c = '\'' then some (s.put [] .single)
    else if c = '"' then some (s.put [] .double)
    else if c = '\\' then some { s with mode := .escaped }
    else if isShExpansion c || isShOperator c || isShPattern c then none
    else if isShLeading c && s.word.isNone then none
    else some (s.put [c] .unquoted)
  | .escaped => some (if c = '\n' then { s with mode := .unquoted } else s.put [c] .unquoted)
  | .single => some (if c = '\'' then s.put [] .unquoted else s.put [c] .single)
  | .double =>
    if isShExpansion c then none
    else if c = '"' then some (s.put [] .unquoted)
    else if c = '\\' then some { s with mode := .doubleEscaped }
    else some (s.put [c] .double)
  | .doubleEscaped =>
    some (if c = '\n' then s.put [] .double else s.put (if isShEscapable c then [c] else ['\\', c]) .double)

/-- Read a text. -/
def run (s : ShState) (text : List Char) : Option ShState := text.foldlM step s

@[simp] theorem run_nil (s : ShState) : s.run [] = some s := rfl

@[simp] theorem run_cons (s : ShState) (c : Char) (text : List Char) : s.run (c :: text) = (s.step c).bind fun s' => s'.run text := by
  simp only [run, List.foldlM_cons]
  rfl

theorem run_append (s : ShState) (text text' : List Char) : s.run (text ++ text') = (s.run text).bind fun s' => s'.run text' := by
  simp only [run, List.foldlM_append]
  rfl

end ShState

/-- The words of a command; nothing when a quote is left open. -/
def shWords (text : List Char) : Option (List (List Char)) :=
  ((ShState.between []).run text).bind fun s => if s.mode = .unquoted then some s.close.words else none

/-- Wherever a word can begin, the shell reads the text as exactly this word. -/
def ShReads (text word : List Char) : Prop := ∀ words, (ShState.between words).run text = some (.within words word)

namespace ShState

/-! ## Text that stands for itself -/

/-- A character that means nothing to the shell outside quotes. -/
def isLiteral (c : Char) : Bool :=
  !(isShBlank c || c = '\'' || c = '"' || c = '\\' || isShExpansion c || isShOperator c || isShPattern c)

/-- A word that needs no quotes. -/
def Bare (text : List Char) : Prop := text ≠ [] ∧ (∀ c ∈ text, isLiteral c = true) ∧ ∀ c ∈ text.head?, isShLeading c = false

theorem bare_iff_all {text : List Char} :
    Bare text ↔ (!text.isEmpty && text.all isLiteral && text.head?.all fun c => !isShLeading c) = true := by
  cases text <;> simp [Bare]

instance (text : List Char) : Decidable (Bare text) := decidable_of_iff _ bare_iff_all.symm

theorem step_unquoted_of_literal {s : ShState} {c : Char} (hmode : s.mode = .unquoted) (hc : isLiteral c = true)
    (hlead : isShLeading c = true → s.word.isSome = true) : s.step c = some (s.put [c] .unquoted) := by
  simp only [isLiteral, Bool.not_eq_true', Bool.or_eq_false_iff, decide_eq_false_iff_not] at hc
  obtain ⟨⟨⟨⟨⟨⟨hblank, hsingle⟩, hdouble⟩, hback⟩, hexp⟩, hop⟩, hpat⟩ := hc
  have hlead' : (isShLeading c && s.word.isNone) = false := by
    cases h : isShLeading c
    · rfl
    · have := hlead h
      cases hw : s.word <;> simp_all
  simp [step, hmode, hblank, hsingle, hdouble, hback, hexp, hop, hpat, hlead']

theorem run_within_of_literal (words : List (List Char)) (word : List Char) {text : List Char} (h : ∀ c ∈ text, isLiteral c = true) :
    (within words word).run text = some (within words (word ++ text)) := by
  induction text generalizing word with
  | nil => simp
  | cons c text ih =>
    have hstep := step_unquoted_of_literal (s := within words word) rfl (h c (by simp)) fun _ => rfl
    rw [run_cons, hstep]
    simpa [put, within] using ih (word ++ [c]) fun d hd => h d (List.mem_cons_of_mem _ hd)

/-- A word without anything special is read as it stands. -/
theorem reads_of_bare {text : List Char} (h : Bare text) : ShReads text text := by
  intro words
  obtain ⟨hne, hlit, hlead⟩ := h
  obtain ⟨c, text, rfl⟩ := List.exists_cons_of_ne_nil hne
  have hstep := step_unquoted_of_literal (s := between words) rfl (hlit c (by simp))
    fun hl => by simp [hlead c (by simp)] at hl
  rw [run_cons, hstep]
  simpa [put, between, within] using run_within_of_literal words [c] fun d hd => hlit d (List.mem_cons_of_mem _ hd)

/-- Neither a blank nor a quote nor a backslash. -/
def isPlain (c : Char) : Bool := !(isShBlank c || c = '\'' || c = '"' || c = '\\')

/-- Outside quotes a character that is not a quote or a blank can only be read as itself. -/
theorem literal_of_step {s s' : ShState} {c : Char} (hc : isPlain c = true) (hmode : s.mode = .unquoted) (h : s.step c = some s') :
    isLiteral c = true ∧ s'.mode = .unquoted ∧ (isShLeading c = true → s.word.isSome = true) := by
  simp only [isPlain, Bool.not_eq_true', Bool.or_eq_false_iff, decide_eq_false_iff_not] at hc
  obtain ⟨⟨⟨hblank, hsingle⟩, hdouble⟩, hback⟩ := hc
  simp only [step, hmode, hblank, hsingle, hdouble, hback, Bool.false_eq_true, if_false] at h
  split at h
  · simp at h
  · rename_i hspecial
    split at h
    · simp at h
    · rename_i hlead
      simp only [Bool.or_eq_true, not_or, Bool.not_eq_true] at hspecial
      simp only [Bool.and_eq_true, not_and, Bool.not_eq_true, Option.isNone_eq_false_iff] at hlead
      cases h
      exact ⟨by simp [isLiteral, hblank, hsingle, hdouble, hback, hspecial], rfl, hlead⟩

theorem literal_of_run {text : List Char} {s s' : ShState} (hplain : ∀ c ∈ text, isPlain c = true) (hmode : s.mode = .unquoted)
    (h : s.run text = some s') : ∀ c ∈ text, isLiteral c = true := by
  induction text generalizing s with
  | nil => simp
  | cons c text ih =>
    rw [run_cons, Option.bind_eq_some_iff] at h
    obtain ⟨s₁, hs₁, hrun⟩ := h
    obtain ⟨hc, hmode₁, -⟩ := literal_of_step (hplain c (by simp)) hmode hs₁
    rw [List.forall_mem_cons]
    exact ⟨hc, ih (fun d hd => hplain d (List.mem_cons_of_mem _ hd)) hmode₁ hrun⟩

/-- A text without quotes, backslashes and blanks is read only when nothing in it is special. -/
theorem bare_of_run {words : List (List Char)} {text : List Char} (hplain : ∀ c ∈ text, isPlain c = true) (hne : text ≠ [])
    {s : ShState} (h : (between words).run text = some s) : Bare text := by
  refine ⟨hne, literal_of_run hplain rfl h, fun c hc => ?_⟩
  obtain ⟨d, text, rfl⟩ := List.exists_cons_of_ne_nil hne
  obtain rfl : d = c := by simpa using hc
  rw [run_cons, Option.bind_eq_some_iff] at h
  obtain ⟨s₁, hs₁, -⟩ := h
  obtain ⟨-, -, hlead⟩ := literal_of_step (hplain d (by simp)) rfl hs₁
  exact Bool.eq_false_iff.mpr fun hl => by simpa [between] using hlead hl

/-! ## Quoted text -/

/-! ## What has been read -/

/-- The characters that have been read into words. -/
def emitted (s : ShState) : List Char := s.words.flatten ++ s.word.getD []

/-- What one character adds to the words. -/
def output (mode : ShMode) (c : Char) : List Char :=
  match mode with
  | .unquoted => if isShBlank c || c = '\'' || c = '"' || c = '\\' then [] else [c]
  | .escaped => if c = '\n' then [] else [c]
  | .single => if c = '\'' then [] else [c]
  | .double => if c = '"' || c = '\\' then [] else [c]
  | .doubleEscaped => if c = '\n' then [] else if isShEscapable c then [c] else ['\\', c]

/-- Where one character leads, if it is read. -/
def after (mode : ShMode) (c : Char) : ShMode :=
  match mode with
  | .unquoted => if c = '\'' then .single else if c = '"' then .double else if c = '\\' then .escaped else .unquoted
  | .escaped => .unquoted
  | .single => if c = '\'' then .unquoted else .single
  | .double => if c = '"' then .unquoted else if c = '\\' then .doubleEscaped else .double
  | .doubleEscaped => .double

@[simp] theorem emitted_put (s : ShState) (text : List Char) (mode : ShMode) : (s.put text mode).emitted = s.emitted ++ text := by
  simp [emitted, put]

@[simp] theorem emitted_close (s : ShState) : s.close.emitted = s.emitted := by
  cases hw : s.word <;> simp [emitted, close, between, hw]

@[simp] theorem mode_put (s : ShState) (text : List Char) (mode : ShMode) : (s.put text mode).mode = mode := rfl

@[simp] theorem mode_close (s : ShState) : s.close.mode = .unquoted := rfl

@[simp] theorem emitted_withMode (s : ShState) (mode : ShMode) : ({ s with mode } : ShState).emitted = s.emitted := rfl

theorem not_blank_of_quote {c : Char} (h : c = '\'' ∨ c = '"' ∨ c = '\\') : isShBlank c = false := by
  rcases h with rfl | rfl | rfl <;> decide

/-- A character that is read adds its output to what has been read. -/
theorem emitted_step {s s' : ShState} {c : Char} (h : s.step c = some s') :
    s'.emitted = s.emitted ++ output s.mode c ∧ s'.mode = after s.mode c := by
  cases hmode : s.mode <;> simp only [step, hmode] at h
  case unquoted =>
    by_cases hb : isShBlank c = true
    · have hquote : ¬ (c = '\'' ∨ c = '"' ∨ c = '\\') := fun hc => by simp [not_blank_of_quote hc] at hb
      simp only [not_or] at hquote
      simp only [hb, if_true, Option.some.injEq] at h
      simp [← h, output, after, hb, hquote]
    · split_ifs at h <;> cases h <;> simp_all [output, after]
  case escaped => split_ifs at h <;> cases h <;> simp_all [output, after]
  case single => split_ifs at h <;> cases h <;> simp_all [output, after]
  case double => split_ifs at h <;> cases h <;> simp_all [output, after]
  case doubleEscaped => split_ifs at h <;> cases h <;> simp_all [output, after]

end ShState

end Ferm
