import Ferm.Iptables.ShellQuoting

/-!
# Arguments in save lines

How `iptables-restore` takes a line of a save apart into arguments, and which tokens it reads back from what `shell_escape` writes
for it.
-/

namespace Ferm

/-- The arguments so far, the one being read, and whether it is between double quotes, there perhaps behind a backslash. -/
structure RestoreState where
  args : List (List Char)
  param : List Char
  quoteOpen : Bool
  escaped : Bool
  deriving DecidableEq, Repr

/-- What separates arguments outside quotes. -/
def isRestoreBlank (c : Char) : Bool := c = ' ' || c = '\t' || c = '\n'

namespace RestoreState

/-- Between arguments. -/
def between (args : List (List Char)) : RestoreState := ⟨args, [], false, false⟩

/-- The argument ends. -/
def finish (s : RestoreState) : RestoreState := between (s.args ++ [s.param])

/-- Read one character: blanks outside quotes end an argument that has begun, a double quote ends it when it closes one, and a
backslash between quotes takes the next character. -/
def step (s : RestoreState) (c : Char) : RestoreState :=
  if s.quoteOpen then
    if s.escaped then { s with param := s.param ++ [c], escaped := false }
    else if c = '\\' then { s with escaped := true }
    else if c = '"' then s.finish
    else { s with param := s.param ++ [c] }
  else if c = '"' then { s with quoteOpen := true }
  else if isRestoreBlank c then if s.param.isEmpty then s else s.finish
  else { s with param := s.param ++ [c] }

/-- Read a text. -/
def run (s : RestoreState) (text : List Char) : RestoreState := text.foldl step s

@[simp] theorem run_nil (s : RestoreState) : s.run [] = s := rfl

@[simp] theorem run_cons (s : RestoreState) (c : Char) (text : List Char) : s.run (c :: text) = (s.step c).run text := rfl

theorem run_append (s : RestoreState) (text text' : List Char) : s.run (text ++ text') = (s.run text).run text' :=
  List.foldl_append ..

/-- All arguments at the end of the line, the one being read among them. -/
def arguments (s : RestoreState) : List (List Char) := if s.param.isEmpty then s.args else s.args ++ [s.param]

end RestoreState

/-- The arguments of a line. -/
def restoreArguments (line : String) : List String :=
  ((RestoreState.between []).run line.toList).arguments.map String.ofList

namespace RestoreAux

open RestoreState ShellAux

/-! ### Tokens without quotes -/

/-- A character that is part of an argument outside quotes. -/
def isOrdinary (c : Char) : Bool := c ≠ '"' && !isRestoreBlank c

theorem run_ordinary (args : List (List Char)) (param : List Char) {text : List Char} (h : ∀ c ∈ text, isOrdinary c = true) :
    (⟨args, param, false, false⟩ : RestoreState).run text = ⟨args, param ++ text, false, false⟩ := by
  induction text generalizing param with
  | nil => simp
  | cons c text ih =>
    have hc := h c (by simp)
    simp only [isOrdinary, Bool.and_eq_true, decide_eq_true_eq, Bool.not_eq_true'] at hc
    simpa [step, hc] using ih (param ++ [c]) fun d hd => h d (List.mem_cons_of_mem _ hd)

/-! ### Tokens between quotes -/

/-- Between quotes a token without backslashes is read up to the closing quote. -/
theorem run_quoted_of_plain (args : List (List Char)) (param : List Char) {token : List Char} (h : '\\' ∉ token) :
    (⟨args, param, true, false⟩ : RestoreState).run (escapeDouble token) = ⟨args, param ++ token, true, false⟩ := by
  induction token generalizing param with
  | nil => simp
  | cons c token ih =>
    rw [List.mem_cons, not_or] at h
    by_cases hc : c = '"'
    · subst hc
      simpa [step] using ih (param ++ ['"']) h.2
    · rw [escapeDouble_cons hc]
      simpa [step, hc, Ne.symm h.1] using ih (param ++ [c]) h.2

/-! ### Backslashes between quotes -/

/-- Arguments that are complete stay. -/
theorem args_prefix_run (s : RestoreState) (text : List Char) : s.args <+: (s.run text).arguments := by
  induction text generalizing s with
  | nil =>
    rw [run_nil, arguments]
    split
    · exact List.prefix_refl _
    · exact List.prefix_append _ _
  | cons c text ih =>
    have hstep : s.args <+: (s.step c).args := by
      unfold step
      split_ifs <;> first | exact List.prefix_refl _ | exact List.prefix_append _ _
    exact hstep.trans (ih (s.step c))

/-- Between quotes the next character of a token is read, or it is a backslash: then the closing quote is taken for a character, or
the argument ends at a quote of the token, or another character is read for two. -/
theorem quoted_cases (word : List Char) (c : Char) (token : List Char) :
    let after := (⟨[], word, true, false⟩ : RestoreState).run (escapeDouble (c :: token) ++ ['"'])
    (c ≠ '\\' ∧ after = (⟨[], word ++ [c], true, false⟩ : RestoreState).run (escapeDouble token ++ ['"'])) ∨
      (c = '\\' ∧ token = [] ∧ after.arguments = [word ++ ['"']]) ∨
      (c = '\\' ∧ [word ++ ['\\']] <+: after.arguments ∧ token ≠ []) ∨
      (c = '\\' ∧ ∃ d rest, token = d :: rest ∧
        after = (⟨[], word ++ [d], true, false⟩ : RestoreState).run (escapeDouble rest ++ ['"'])) := by
  intro after
  by_cases hquote : c = '"'
  · subst hquote
    exact Or.inl ⟨by decide, by simp [after, step]⟩
  by_cases hc : c = '\\'
  · subst hc
    right
    cases token with
    | nil => exact Or.inl ⟨rfl, rfl, by simp [after, escapeDouble_cons, step, arguments]⟩
    | cons d rest =>
      right
      by_cases hd : d = '"'
      · subst hd
        refine Or.inl ⟨rfl, ?_, by simp⟩
        have hafter : after = (between [word ++ ['\\']]).run (escapeDouble rest ++ ['"']) := by
          simp [after, escapeDouble_cons, step, finish]
        rw [hafter]
        exact args_prefix_run (between [word ++ ['\\']]) _
      · exact Or.inr ⟨rfl, d, rest, rfl, by simp [after, escapeDouble_cons, hd, step]⟩
  · exact Or.inl ⟨hc, by simp [after, escapeDouble_cons hquote, step, hc, hquote]⟩

/-- From between quotes the first argument is at most as long as the token. -/
theorem length_first_le : ∀ (token word : List Char), ∃ first rest,
    ((⟨[], word, true, false⟩ : RestoreState).run (escapeDouble token ++ ['"'])).arguments = first :: rest ∧
      first.length ≤ word.length + token.length
  | [], word => ⟨word, [], by simp [step, finish, between, arguments], by simp⟩
  | c :: token, word => by
    obtain ⟨-, h⟩ | ⟨-, rfl, h⟩ | ⟨-, ⟨rest, h⟩, hne⟩ | ⟨-, d, rest, rfl, h⟩ := quoted_cases word c token
    · obtain ⟨first, rest, hfirst, hlength⟩ := length_first_le token (word ++ [c])
      refine ⟨first, rest, by rw [h, hfirst], ?_⟩
      simp only [List.length_append, List.length_cons, List.length_nil] at hlength ⊢
      omega
    · exact ⟨_, [], h, by simp⟩
    · exact ⟨_, rest, h.symm, by simp⟩
    · obtain ⟨first, more, hfirst, hlength⟩ := length_first_le rest (word ++ [d])
      refine ⟨first, more, by rw [h, hfirst], ?_⟩
      simp only [List.length_append, List.length_cons, List.length_nil] at hlength ⊢
      omega

/-- A token with a backslash is not read back from between quotes. -/
theorem not_read_of_backslash : ∀ (token word : List Char), '\\' ∈ token →
    ((⟨[], word, true, false⟩ : RestoreState).run (escapeDouble token ++ ['"'])).arguments ≠ [word ++ token]
  | c :: token, word, hmem => by
    intro hread
    obtain ⟨hc, h⟩ | ⟨rfl, rfl, h⟩ | ⟨rfl, ⟨rest, h⟩, hne⟩ | ⟨rfl, d, rest, rfl, h⟩ := quoted_cases word c token
    · have hmem' : '\\' ∈ token := (List.mem_cons.mp hmem).resolve_left (Ne.symm hc)
      exact not_read_of_backslash token (word ++ [c]) hmem' (by rw [← h, hread]; simp)
    · rw [h] at hread
      simp at hread
    · rw [← h] at hread
      simp only [List.cons_append, List.cons.injEq, List.append_cancel_left_eq] at hread
      exact hne (by simpa using hread.1.symm)
    · obtain ⟨first, more, hfirst, hlength⟩ := length_first_le rest (word ++ [d])
      rw [h, hfirst] at hread
      have hlength' := congrArg List.length (List.head_eq_of_cons_eq hread)
      simp only [List.length_append, List.length_cons, List.length_nil] at hlength hlength'
      omega

/-- Exactly the tokens without a backslash are read back from between quotes. -/
theorem arguments_quoted_iff (token : List Char) :
    ((between []).run ('"' :: escapeDouble token ++ ['"'])).arguments = [token] ↔ '\\' ∉ token := by
  have hopen : (between []).run ('"' :: escapeDouble token ++ ['"']) =
      (⟨[], [], true, false⟩ : RestoreState).run (escapeDouble token ++ ['"']) := by
    simp [between, step]
  rw [hopen]
  refine ⟨fun hread hmem => not_read_of_backslash token [] hmem hread, fun h => ?_⟩
  rw [run_append, run_quoted_of_plain [] [] h]
  simp [step, finish, between, arguments]

/-- A token that is not put in quotes, on one line, has nothing special in it. -/
theorem ordinary_of_not_quoted {token : List Char} (h : isQuoted token true = false) (hline : '\n' ∉ token) :
    token ≠ [] ∧ ∀ c ∈ token, isOrdinary c = true ∧ c ≠ '\\' := by
  by_cases hplain : isPlainToken token = true
  · simp only [isPlainToken] at hplain
    have hlast : token.getLast? ≠ some '\n' := fun hlast => hline (List.mem_of_getLast? hlast)
    rw [if_neg hlast, Bool.and_eq_true, List.all_eq_true] at hplain
    refine ⟨by rintro rfl; simp at hplain, fun c hc => ?_⟩
    have hchar := hplain.2 c hc
    by_contra hnot
    have hspecial : c = '"' ∨ c = ' ' ∨ c = '\t' ∨ c = '\n' ∨ c = '\\' := by
      simp only [isOrdinary, isRestoreBlank] at hnot
      grind
    rcases hspecial with rfl | rfl | rfl | rfl | rfl <;> exact absurd hchar (by decide)
  · simp only [isQuoted, hplain, Bool.not_false, Bool.true_or, Bool.and_true, Bool.true_and, if_true, Bool.or_eq_false_iff] at h
    obtain ⟨hne, hchars⟩ := h
    refine ⟨by rintro rfl; simp at hne, fun c hc => ?_⟩
    have hchar : (isFastSpecial c || decide (c = '"')) = false := by
      rw [List.any_eq_false] at hchars
      simpa using hchars c hc
    by_contra hnot
    have hspecial : c = '"' ∨ c = ' ' ∨ c = '\t' ∨ c = '\n' ∨ c = '\\' := by
      simp only [isOrdinary, isRestoreBlank] at hnot
      grind
    rcases hspecial with rfl | rfl | rfl | rfl | rfl <;> exact absurd hchar (by decide)

end RestoreAux

open RestoreState ShellAux RestoreAux

/-- A token on one line is read back as one argument from what is written for `iptables-restore` exactly when it has no
backslash. -/
theorem restore_argument_reads_back_iff (token : String) (h : '\n' ∉ token.toList) :
    restoreArguments (shellEscape token true) = [token] ↔ '\\' ∉ token.toList := by
  have hchars : restoreArguments (shellEscape token true) = [token] ↔
      ((between []).run (shellEscape token true).toList).arguments = [token.toList] := by
    rw [restoreArguments, List.map_eq_singleton_iff]
    constructor
    · rintro ⟨argument, harguments, rfl⟩
      rw [harguments, String.toList_ofList]
    · intro harguments
      exact ⟨token.toList, harguments, String.ofList_toList⟩
  rw [hchars, shellEscape, String.toList_ofList, shellEscapeChars_fast]
  split
  · exact arguments_quoted_iff token.toList
  · rename_i hquoted
    obtain ⟨hne, hall⟩ := ordinary_of_not_quoted (Bool.eq_false_iff.mpr hquoted) h
    refine iff_of_true ?_ fun hmem => (hall _ hmem).2 rfl
    rw [between, run_ordinary [] [] fun c hc => (hall c hc).1]
    simp [arguments, hne]

/-- A token with quotes and blanks is read back. -/
theorem restore_argument_reads_back_quotes : '\n' ∉ "a \"b\" c".toList ∧
    (restoreArguments (shellEscape "a \"b\" c" true) = ["a \"b\" c"] ↔ '\\' ∉ "a \"b\" c".toList) :=
  ⟨by decide, restore_argument_reads_back_iff "a \"b\" c" (by decide)⟩

/-- Of a backslash and the character after it only the character is read back. -/
theorem restore_loses_backslash : '\n' ∉ "10\\.0".toList ∧
    restoreArguments (shellEscape "10\\.0" true) = ["10.0"] ∧ restoreArguments (shellEscape "10\\.0" true) ≠ ["10\\.0"] := by
  decide

end Ferm
