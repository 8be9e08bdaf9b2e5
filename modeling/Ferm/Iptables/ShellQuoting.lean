import Ferm.Iptables.Slow
import Ferm.Lib.Monadic
import Ferm.Lib.ShellWords

/-!
# Tokens in shell commands

What a shell makes of an escaped token: which tokens it reads back, with the escaping for the shell and with the one for
`iptables-restore`, which the commands for arp and eb are written with in fast mode.
-/

namespace Ferm

open ShState

/-- Between double quotes nothing is expanded and no backslash takes the next character, when only the quotes are escaped. -/
def isDoubleSafe : List Char → Bool
  | [] => true
  | c :: cs =>
    !isShExpansion c && (c ≠ '\\' || cs.head?.any fun d => !isShEscapable d && d ≠ '\n') && isDoubleSafe cs

/-- `shell_escape` puts the token in quotes. -/
def isQuoted (token : List Char) (fast : Bool) : Bool :=
  !isPlainToken token && (fast || !isBacktick token) &&
    (token.isEmpty || token.any fun c => if fast then isFastSpecial c || c = '"' else isSlowSpecial c || c = '\'')

/-- The tokens a shell reads back: in single quotes every one, in double quotes and without quotes the ones in which nothing is
special to it. -/
def ShellFaithful (token : List Char) (fast : Bool) : Prop :=
  if isQuoted token fast then (fast = true → isDoubleSafe token = true) else Bare token

namespace ShellAux

@[simp] theorem replaceChar_nil (c : Char) (text : List Char) : replaceChar c text [] = [] := rfl

theorem replaceChar_cons (c : Char) (text : List Char) (d : Char) (token : List Char) :
    replaceChar c text (d :: token) = (if d = c then text else [d]) ++ replaceChar c text token := rfl

theorem replaceChar_eq_self {c : Char} {text token : List Char} (h : c ∉ token) : replaceChar c text token = token := by
  induction token with
  | nil => rfl
  | cons d token ih =>
    rw [List.mem_cons, not_or] at h
    simp [replaceChar_cons, Ne.symm h.1, ih h.2]

/-! ### Single quotes -/

/-- Between single quotes every token is read back. -/
theorem reads_single (token : List Char) : ShReads ('\'' :: replaceChar '\'' ['\'', '\\', '\'', '\''] token ++ ['\'']) token := by
  have hrun : ∀ (words : List (List Char)) (word token : List Char),
      (⟨words, some word, .single⟩ : ShState).run (replaceChar '\'' ['\'', '\\', '\'', '\''] token) =
        some ⟨words, some (word ++ token), .single⟩ := by
    intro words word token
    induction token generalizing word with
    | nil => simp
    | cons c token ih =>
      by_cases hc : c = '\''
      · subst hc
        simpa [replaceChar_cons, step, put, isShBlank] using ih (word ++ ['\''])
      · simpa [replaceChar_cons, step, put, hc] using ih (word ++ [c])
  intro words
  have hopen : (between words).step '\'' = some ⟨words, some [], .single⟩ := rfl
  rw [List.cons_append, run_cons, hopen, Option.bind_some, run_append, hrun words [] token]
  simp [step, put, within]

/-! ### Double quotes -/

/-- A token with its double quotes escaped. -/
def escapeDouble (token : List Char) : List Char := replaceChar '"' ['\\', '"'] token

@[simp] theorem escapeDouble_nil : escapeDouble [] = [] := rfl

@[simp] theorem escapeDouble_quote (token : List Char) : escapeDouble ('"' :: token) = '\\' :: '"' :: escapeDouble token := rfl

theorem escapeDouble_cons {c : Char} (h : c ≠ '"') (token : List Char) : escapeDouble (c :: token) = c :: escapeDouble token := by
  simp [escapeDouble, replaceChar_cons, h]

/-- What is safe between double quotes is read back up to the closing one. -/
theorem run_double_of_safe (words : List (List Char)) :
    ∀ (token word : List Char), isDoubleSafe token = true →
      (⟨words, some word, .double⟩ : ShState).run (escapeDouble token ++ ['"']) = some (within words (word ++ token))
  | [], word, _ => by simp [step, put, within, isShExpansion]
  | c :: token, word, h => by
    simp only [isDoubleSafe, Bool.and_eq_true, Bool.not_eq_true', Bool.or_eq_true, decide_eq_true_eq] at h
    obtain ⟨⟨hexp, hback⟩, hrest⟩ := h
    by_cases hquote : c = '"'
    · subst hquote
      have ih := run_double_of_safe words token (word ++ ['"']) hrest
      simpa [step, put, isShExpansion, isShEscapable] using ih
    by_cases hc : c = '\\'
    · subst hc
      obtain ⟨d, hd, hsafe⟩ : ∃ d, token.head? = some d ∧ (isShEscapable d = false ∧ d ≠ '\n') := by
        simpa [Option.any_eq_true] using hback
      obtain ⟨token, rfl⟩ : ∃ tail, token = d :: tail := by
        cases token with
        | nil => simp at hd
        | cons e tail => exact ⟨tail, by simpa using hd⟩
      have hne : d ≠ '"' := by rintro rfl; simp [isShEscapable] at hsafe
      have hsafe' : isDoubleSafe token = true := by
        simp only [isDoubleSafe, Bool.and_eq_true] at hrest
        exact hrest.2
      have ih := run_double_of_safe words token (word ++ ['\\', d]) hsafe'
      rw [escapeDouble_cons (by decide), escapeDouble_cons hne]
      simpa [step, put, isShExpansion, hsafe] using ih
    · have ih := run_double_of_safe words token (word ++ [c]) hrest
      rw [escapeDouble_cons hquote]
      simpa [step, put, hexp, hquote, hc] using ih

/-! ### What a misread token would have to give

A double quote that the shell takes for the end of the quotes is missing from what is read, and nothing makes up for it: every
other escaped quote gives at most one, and so does the closing one, but then it is the last character and the token ends with a
backslash. -/

/-- An escaped character gives at most as many double quotes as it is one. -/
theorem count_run_escape {s s' : ShState} {c : Char} (h : s.run (escapeDouble [c]) = some s') :
    s'.emitted.count '"' ≤ s.emitted.count '"' + [c].count '"' ∧ (s'.mode = .escaped → c = '\\') := by
  by_cases hc : c = '"'
  · subst hc
    rw [escapeDouble_quote, run_cons, Option.bind_eq_some_iff] at h
    obtain ⟨s₁, hs₁, h⟩ := h
    rw [escapeDouble_nil, run_cons, Option.bind_eq_some_iff] at h
    obtain ⟨s₂, hs₂, h⟩ := h
    obtain rfl : s₂ = s' := by simpa using h
    obtain ⟨he₁, hm₁⟩ := emitted_step hs₁
    obtain ⟨he₂, hm₂⟩ := emitted_step hs₂
    rw [he₂, hm₂, he₁, hm₁, List.count_append, List.count_append]
    cases s.mode <;> simp +decide [output, after]
  · rw [escapeDouble_cons hc, escapeDouble_nil, run_cons, Option.bind_eq_some_iff] at h
    obtain ⟨s₁, hs₁, h⟩ := h
    obtain rfl : s₁ = s' := by simpa using h
    obtain ⟨he, hm⟩ := emitted_step hs₁
    have hzero : (output s.mode c).count '"' = 0 := by
      have hc' : ¬ '"' = c := Ne.symm hc
      rw [List.count_eq_zero]
      intro hmem
      cases hmode : s.mode <;> simp only [hmode, output] at hmem <;> split_ifs at hmem <;> simp_all
    rw [he, hm, List.count_append, hzero]
    refine ⟨Nat.le_add_right _ _, fun hmode => ?_⟩
    cases hm' : s.mode <;> simp only [hm', after] at hmode <;> try split_ifs at hmode
    all_goals simp_all

theorem escapeDouble_append (token token' : List Char) : escapeDouble (token ++ token') = escapeDouble token ++ escapeDouble token' := by
  simp [escapeDouble, replaceChar]

/-- A token gives at most as many double quotes as it has. -/
theorem count_run_escapeDouble {token : List Char} {s s' : ShState} (h : s.run (escapeDouble token) = some s') :
    s'.emitted.count '"' ≤ s.emitted.count '"' + token.count '"' := by
  induction token generalizing s with
  | nil =>
    obtain rfl : s = s' := by simpa using h
    exact Nat.le_add_right _ _
  | cons c token ih =>
    rw [← List.singleton_append, escapeDouble_append, run_append, Option.bind_eq_some_iff] at h
    obtain ⟨s₁, hs₁, h⟩ := h
    have hcount₁ := (count_run_escape hs₁).1
    have hcount := ih h
    rw [← List.singleton_append, List.count_append]
    omega

/-- Only a backslash at the end of a token leaves the shell behind a backslash. -/
theorem getLast?_of_escaped {token : List Char} {s s' : ShState} (h : s.run (escapeDouble token) = some s')
    (hmode : s.mode ≠ .escaped) (hmode' : s'.mode = .escaped) : token.getLast? = some '\\' := by
  obtain rfl | ⟨token, c, rfl⟩ := List.eq_nil_or_concat' token
  · obtain rfl : s = s' := by simpa using h
    exact absurd hmode' hmode
  · rw [escapeDouble_append, run_append, Option.bind_eq_some_iff] at h
    obtain ⟨s₁, -, h⟩ := h
    rw [(count_run_escape h).2 hmode', List.getLast?_concat]

/-- From outside quotes the rest of the text, with the closing quote, gives at most the quotes of the token, or one more if this
is the last character and the token ends with a backslash. -/
theorem count_run_unquoted {token : List Char} {s s' : ShState} (h : s.run (escapeDouble token ++ ['"']) = some s')
    (hmode : s.mode = .unquoted) (hmode' : s'.mode = .unquoted) :
    s'.emitted.count '"' ≤ s.emitted.count '"' + token.count '"' ∨
      (s'.emitted.getLast? = some '"' ∧ token.getLast? = some '\\') := by
  rw [run_append, Option.bind_eq_some_iff] at h
  obtain ⟨s₁, hs₁, h⟩ := h
  have hcount := count_run_escapeDouble hs₁
  have hstep : s₁.step '"' = some s' := by simpa using h
  obtain ⟨hemitted, hafter⟩ := emitted_step hstep
  by_cases hescaped : s₁.mode = .escaped
  · right
    refine ⟨?_, getLast?_of_escaped hs₁ (by simp [hmode]) hescaped⟩
    rw [hemitted, hescaped]
    exact List.getLast?_concat
  · left
    have hout : ∀ mode : ShMode, mode ≠ .escaped → after mode '"' = .unquoted → output mode '"' = [] := by
      intro mode
      cases mode <;> decide
    rw [hemitted, hout s₁.mode hescaped (hafter ▸ hmode'), List.append_nil]
    exact hcount

/-- What follows a backslash that takes a double quote cannot be read as it stands, since a quote is missing. -/
theorem not_read_of_closed (given : List Char) {token : List Char} {s s' : ShState} (hmode : s.mode = .unquoted)
    (h : s.run (escapeDouble token ++ ['"']) = some s') (hmode' : s'.mode = .unquoted)
    (hgiven : s'.emitted = given ++ '"' :: token) (hcount : s.emitted.count '"' ≤ given.count '"') : False := by
  rcases count_run_unquoted h hmode hmode' with hle | ⟨hlast, hback⟩
  · rw [hgiven, List.count_append, List.count_cons_self] at hle
    omega
  · have hne : token ≠ [] := by rintro rfl; simp at hback
    rw [hgiven, List.getLast?_append, List.getLast?_cons, hback] at hlast
    simp at hlast

/-- What the shell does with the next character of a token between double quotes: it reads it, or the character is a backslash that
takes a double quote, which then ends the quotes, or one that takes another character. -/
theorem double_cases {c : Char} {token : List Char} {s s' : ShState} (hmode : s.mode = .double)
    (h : s.run (escapeDouble (c :: token) ++ ['"']) = some s') (hmode' : s'.mode = .unquoted) :
    (isShExpansion c = false ∧ c ≠ '\\' ∧
        ∃ s₁ : ShState, s₁.mode = .double ∧ s₁.emitted = s.emitted ++ [c] ∧ s₁.run (escapeDouble token ++ ['"']) = some s') ∨
      (c = '\\' ∧ ∃ (rest : List Char) (s₁ : ShState), token = '"' :: rest ∧ s₁.mode = .unquoted ∧ s₁.emitted = s.emitted ++ ['\\'] ∧
        s₁.run (escapeDouble rest ++ ['"']) = some s') ∨
      (c = '\\' ∧ ∃ (d : Char) (rest : List Char) (s₁ : ShState), token = d :: rest ∧ d ≠ '"' ∧ s₁.mode = .double ∧
        s₁.emitted = s.emitted ++ output .doubleEscaped d ∧ s₁.run (escapeDouble rest ++ ['"']) = some s') := by
  by_cases hquote : c = '"'
  · left
    subst hquote
    rw [escapeDouble_quote, List.cons_append, run_cons, Option.bind_eq_some_iff] at h
    obtain ⟨s₁, hs₁, h⟩ := h
    rw [List.cons_append, run_cons, Option.bind_eq_some_iff] at h
    obtain ⟨s₂, hs₂, h⟩ := h
    obtain ⟨he₁, hm₁⟩ := emitted_step hs₁
    obtain ⟨he₂, hm₂⟩ := emitted_step hs₂
    rw [hmode] at he₁ hm₁
    rw [hm₁] at he₂ hm₂
    exact ⟨by decide, by decide, s₂, hm₂, by rw [he₂, he₁]; simp +decide [output, after], h⟩
  rw [escapeDouble_cons hquote, List.cons_append, run_cons, Option.bind_eq_some_iff] at h
  obtain ⟨s₁, hs₁, h⟩ := h
  obtain ⟨he₁, hm₁⟩ := emitted_step hs₁
  rw [hmode] at he₁ hm₁
  by_cases hc : c = '\\'
  · right
    subst hc
    cases token with
    | nil =>
      obtain ⟨-, hm⟩ := emitted_step (show s₁.step '"' = some s' by simpa using h)
      rw [hmode', hm₁] at hm
      cases hm
    | cons d rest =>
      by_cases hd : d = '"'
      · left
        subst hd
        rw [escapeDouble_quote, List.cons_append, run_cons, Option.bind_eq_some_iff] at h
        obtain ⟨s₂, hs₂, h⟩ := h
        rw [List.cons_append, run_cons, Option.bind_eq_some_iff] at h
        obtain ⟨s₃, hs₃, h⟩ := h
        obtain ⟨he₂, hm₂⟩ := emitted_step hs₂
        obtain ⟨he₃, hm₃⟩ := emitted_step hs₃
        rw [hm₁] at he₂ hm₂
        rw [hm₂] at he₃ hm₃
        exact ⟨rfl, rest, s₃, rfl, hm₃, by rw [he₃, he₂, he₁]; simp +decide [output, after], h⟩
      · right
        rw [escapeDouble_cons hd, List.cons_append, run_cons, Option.bind_eq_some_iff] at h
        obtain ⟨s₂, hs₂, h⟩ := h
        obtain ⟨he₂, hm₂⟩ := emitted_step hs₂
        rw [hm₁] at he₂ hm₂
        exact ⟨rfl, d, rest, s₂, rfl, hd, hm₂, by rw [he₂, he₁]; simp +decide [output, after], h⟩
  · left
    have hexp : isShExpansion c = false := by
      by_contra hexp
      simp [step, hmode, hexp] at hs₁
    exact ⟨hexp, hc, s₁, by simp [hm₁, after, hquote, hc], by simp [he₁, output, hquote, hc], h⟩

/-- Between double quotes what has been lost is not made up for. -/
theorem not_read_of_lost : ∀ (given : List Char) {token : List Char} {s s' : ShState}, s.mode = .double →
    s.run (escapeDouble token ++ ['"']) = some s' → s'.mode = .unquoted → s'.emitted = given ++ token →
      s.emitted.length < given.length → s.emitted.count '"' ≤ given.count '"' → False
  | given, [], s, s', hmode, h, _, hgiven, hlength, _ => by
    obtain ⟨he, -⟩ := emitted_step (show s.step '"' = some s' by simpa using h)
    rw [hmode] at he
    have hout : output .double '"' = [] := rfl
    rw [hgiven, hout, List.append_nil, List.append_nil] at he
    rw [he] at hlength
    omega
  | given, c :: token, s, s', hmode, h, hmode', hgiven, hlength, hcount => by
    obtain ⟨-, -, s₁, hm₁, he₁, h⟩ | ⟨rfl, rest, s₁, rfl, hm₁, he₁, h⟩ | ⟨rfl, d, rest, s₁, rfl, hd, hm₁, he₁, h⟩ :=
      double_cases hmode h hmode'
    · refine not_read_of_lost (given ++ [c]) hm₁ h hmode' (by simp [hgiven]) ?_ ?_
      · simpa [he₁] using hlength
      · simpa [he₁, List.count_append] using hcount
    · refine not_read_of_closed (given ++ ['\\']) hm₁ h hmode' (by simp [hgiven]) ?_
      simpa [he₁, List.count_append] using hcount
    · have hout : (output .doubleEscaped d).length ≤ 2 ∧ (output .doubleEscaped d).count '"' = 0 := by
        have hd' : ¬ '"' = d := Ne.symm hd
        simp only [output]
        split_ifs <;> simp [List.count_eq_zero, hd']
      refine not_read_of_lost (given ++ ['\\', d]) hm₁ h hmode' (by simp [hgiven]) ?_ ?_
      · rw [he₁, List.length_append, List.length_append]
        simp only [List.length_cons, List.length_nil]
        omega
      · rw [he₁, List.count_append, List.count_append, hout.2]
        omega

/-- Only a safe token is read back from between double quotes. -/
theorem safe_of_run_double : ∀ {token : List Char} {s s' : ShState}, s.mode = .double →
    s.run (escapeDouble token ++ ['"']) = some s' → s'.mode = .unquoted → s'.emitted = s.emitted ++ token → isDoubleSafe token = true
  | [], _, _, _, _, _, _ => rfl
  | c :: token, s, s', hmode, h, hmode', hgiven => by
    obtain ⟨hexp, hc, s₁, hm₁, he₁, h⟩ | ⟨rfl, rest, s₁, rfl, hm₁, he₁, h⟩ | ⟨rfl, d, rest, s₁, rfl, hd, hm₁, he₁, h⟩ :=
      double_cases hmode h hmode'
    · have ih := safe_of_run_double hm₁ h hmode' (by simp [hgiven, he₁])
      simp [isDoubleSafe, hexp, hc, ih]
    · exact (not_read_of_closed (s.emitted ++ ['\\']) hm₁ h hmode' (by simp [hgiven]) (by rw [he₁])).elim
    · by_cases hspecial : isShEscapable d = true ∨ d = '\n'
      · refine (not_read_of_lost (s.emitted ++ ['\\', d]) hm₁ h hmode' (by simp [hgiven]) ?_ ?_).elim
        · have hout : (output .doubleEscaped d).length ≤ 1 := by
            simp only [output]
            rcases hspecial with hspecial | rfl
            · split_ifs <;> simp
            · simp
          rw [he₁, List.length_append, List.length_append]
          simp only [List.length_cons, List.length_nil]
          omega
        · have hout : (output .doubleEscaped d).count '"' = 0 := by
            have hd' : ¬ '"' = d := Ne.symm hd
            simp only [output]
            split_ifs <;> simp [List.count_eq_zero, hd']
          rw [he₁, List.count_append, List.count_append, hout]
          omega
      · rw [not_or, Bool.not_eq_true] at hspecial
        have hout : output .doubleEscaped d = ['\\', d] := by simp [output, hspecial]
        have ih := safe_of_run_double hm₁ h hmode' (by simp [hgiven, he₁, hout])
        have hexp : isShExpansion d = false := by
          have := hspecial.1
          simp only [isShEscapable, Bool.or_eq_false_iff] at this
          exact this.1.1
        have hback : d ≠ '\\' := by
          rintro rfl
          exact absurd hspecial.1 (by decide)
        have hslash : isShExpansion '\\' = false := by decide
        simp [isDoubleSafe, hslash, hspecial, hexp, hback, ih]

/-- Between double quotes exactly the safe tokens are read back. -/
theorem reads_double_iff (token : List Char) : ShReads ('"' :: escapeDouble token ++ ['"']) token ↔ isDoubleSafe token = true := by
  constructor
  · intro h
    have h := h []
    have hopen : (between []).step '"' = some ⟨[], some [], .double⟩ := rfl
    rw [List.cons_append, run_cons, hopen, Option.bind_some] at h
    exact safe_of_run_double rfl h rfl (by simp [within, emitted])
  · intro h words
    have hopen : (between words).step '"' = some ⟨words, some [], .double⟩ := rfl
    rw [List.cons_append, run_cons, hopen, Option.bind_some, run_double_of_safe words token [] h]
    rfl

/-! ### Without quotes -/

/-- A text that begins with a backquote is not read. -/
theorem not_reads_backtick (text word : List Char) : ¬ ShReads (Char.ofNat 0x60 :: text) word := by
  intro h
  have h := h []
  rw [run_cons] at h
  exact absurd h (by simp +decide [step, between])

theorem not_bare_backtick (text : List Char) : ¬ Bare (Char.ofNat 0x60 :: text) := fun h =>
  absurd (h.2.1 _ (List.mem_cons_self ..)) (by decide)

/-- A text without quotes, backslashes and blanks is read back when nothing in it is special. -/
theorem reads_self_iff {text : List Char} (h : ∀ c ∈ text, isPlain c = true) : ShReads text text ↔ Bare text := by
  refine ⟨fun hreads => ?_, reads_of_bare⟩
  have hrun := hreads []
  refine bare_of_run h ?_ hrun
  rintro rfl
  simp [between, within] at hrun

theorem isPlain_of_plainToken {token : List Char} (h : isPlainToken token = true) : ∀ c ∈ token, isPlain c = true := by
  have hchar : ∀ c : Char, isPlainChar c = true → isPlain c = true := by
    intro c hc
    by_contra hplain
    simp only [isPlain, isShBlank, Bool.not_eq_true', Bool.not_eq_false, Bool.or_eq_true, decide_eq_true_eq] at hplain
    rcases hplain with (((rfl | rfl) | rfl) | rfl) | rfl <;> exact absurd hc (by decide)
  intro c hc
  simp only [isPlainToken] at h
  split at h
  · rename_i hlast
    rw [Bool.and_eq_true, List.all_eq_true] at h
    rw [← List.dropLast_append_getLast? _ hlast, List.mem_append, List.mem_singleton] at hc
    rcases hc with hc | rfl
    · exact hchar c (h.2 c hc)
    · decide
  · rw [Bool.and_eq_true, List.all_eq_true] at h
    exact hchar c (h.2 c hc)

theorem cons_of_isBacktick {token : List Char} (h : isBacktick token = true) : ∃ text, token = Char.ofNat 0x60 :: text := by
  simp only [isBacktick] at h
  cases token with
  | nil => simp at h
  | cons c text =>
    refine ⟨text, ?_⟩
    split at h
    · rename_i hlast
      cases text with
      | nil => simp at h
      | cons d text =>
        simp only [List.dropLast_cons_cons, List.head?_cons, Bool.and_eq_true, decide_eq_true_eq, Option.some.injEq] at h
        rw [h.1.1.1]
    · simp only [List.head?_cons, Bool.and_eq_true, decide_eq_true_eq, Option.some.injEq] at h
      rw [h.1.1.1]

theorem any_replaceChar {special : Char → Bool} {text : List Char} (c : Char) (h : text.any special = true) (token : List Char) :
    (replaceChar c text token).any special = token.any fun d => special d || d = c := by
  induction token with
  | nil => rfl
  | cons d token ih =>
    by_cases hd : d = c
    · simp [replaceChar_cons, hd, h]
    · simp [replaceChar_cons, hd, ih]

theorem isEmpty_replaceChar {c : Char} {text : List Char} (h : text ≠ []) (token : List Char) :
    (replaceChar c text token).isEmpty = token.isEmpty := by
  cases token with
  | nil => rfl
  | cons d token =>
    by_cases hd : d = c
    · simp [replaceChar_cons, hd, h]
    · simp [replaceChar_cons, hd]

theorem isPlain_of_not_fastSpecial {c : Char} (h : (isFastSpecial c || c = '"') = false) : isPlain c = true := by
  by_contra hplain
  simp only [isPlain, isShBlank, Bool.not_eq_true', Bool.not_eq_false, Bool.or_eq_true, decide_eq_true_eq] at hplain
  rcases hplain with (((rfl | rfl) | rfl) | rfl) | rfl <;> exact absurd h (by decide)

theorem isPlain_of_not_slowSpecial {c : Char} (h : (isSlowSpecial c || c = '\'') = false) : isPlain c = true := by
  by_contra hplain
  simp only [isPlain, isShBlank, Bool.not_eq_true', Bool.not_eq_false, Bool.or_eq_true, decide_eq_true_eq] at hplain
  rcases hplain with (((rfl | rfl) | rfl) | rfl) | rfl <;> exact absurd h (by decide)

/-- A token with one of its characters replaced is put in quotes when a character of it asks for them, or the replacement does. -/
theorem quoteIf_replaceChar {special : Char → Bool} {quote c : Char} {text : List Char} (h : text.any special = true)
    (token : List Char) : quoteIf special quote (replaceChar c text token) =
      if token.isEmpty || token.any (fun d => special d || d = c) then quote :: replaceChar c text token ++ [quote] else token := by
  have hne : text ≠ [] := by rintro rfl; simp at h
  rw [quoteIf, any_replaceChar c h, isEmpty_replaceChar hne, Bool.or_comm]
  split
  · rfl
  · rename_i hspecial
    refine replaceChar_eq_self fun hmem => hspecial ?_
    rw [Bool.or_eq_true, List.any_eq_true]
    exact Or.inr ⟨c, hmem, by simp⟩

/-- What `shell_escape` writes for `iptables-restore`: the token with its quotes escaped between double quotes, or the token. -/
theorem shellEscapeChars_fast (token : List Char) : shellEscapeChars token true =
    if isQuoted token true then '"' :: escapeDouble token ++ ['"'] else token := by
  by_cases hplain : isPlainToken token = true
  · simp [shellEscapeChars, isQuoted, hplain]
  · have hspecial : ['\\', '"'].any isFastSpecial = true := by decide
    simp [shellEscapeChars, hplain, quoteIf_replaceChar hspecial, isQuoted, escapeDouble]

/-- What `shell_escape` writes for the shell: the token between single quotes, or the token. -/
theorem shellEscapeChars_slow (token : List Char) : shellEscapeChars token false =
    if isQuoted token false then '\'' :: replaceChar '\'' ['\'', '\\', '\'', '\''] token ++ ['\''] else token := by
  by_cases hplain : isPlainToken token = true
  · simp [shellEscapeChars, isQuoted, hplain]
  by_cases hback : isBacktick token = true
  · simp [shellEscapeChars, isQuoted, hplain, hback]
  · have hspecial : ['\'', '\\', '\'', '\''].any isSlowSpecial = true := by decide
    simp [shellEscapeChars, hplain, hback, quoteIf_replaceChar hspecial, isQuoted]

/-- A token that is not put in quotes has no quotes, backslashes and blanks, or begins with a backquote. -/
theorem plain_of_not_quoted {token : List Char} {fast : Bool} (h : isQuoted token fast = false) :
    (∀ c ∈ token, isPlain c = true) ∨ isBacktick token = true := by
  by_cases hplain : isPlainToken token = true
  · exact Or.inl (isPlain_of_plainToken hplain)
  cases fast
  · by_cases hback : isBacktick token = true
    · exact Or.inr hback
    · simp [isQuoted, hplain, hback] at h
      exact Or.inl fun c hc => isPlain_of_not_slowSpecial (by simpa using h.2 c hc)
  · simp [isQuoted, hplain] at h
    exact Or.inl fun c hc => isPlain_of_not_fastSpecial (by simpa using h.2 c hc)

theorem reads_unquoted_iff {token : List Char} {fast : Bool} (h : isQuoted token fast = false) : ShReads token token ↔ Bare token := by
  rcases plain_of_not_quoted h with hplain | hback
  · exact reads_self_iff hplain
  · obtain ⟨text, rfl⟩ := cons_of_isBacktick hback
    exact iff_of_false (not_reads_backtick text _) (not_bare_backtick text)

end ShellAux

open ShellAux

/-- A shell reads an escaped token back as exactly this token when it is in single quotes, or in double quotes and safe there, or
when nothing in it is special. -/
theorem shell_reads_back_iff (token : String) (fast : Bool) :
    ShReads (shellEscape token fast).toList token.toList ↔ ShellFaithful token.toList fast := by
  rw [shellEscape, String.toList_ofList, ShellFaithful]
  cases fast
  · rw [shellEscapeChars_slow]
    split
    · exact iff_of_true (reads_single token.toList) (by simp)
    · rename_i h
      exact reads_unquoted_iff (Bool.eq_false_iff.mpr h)
  · rw [shellEscapeChars_fast]
    split
    · simpa using reads_double_iff token.toList
    · rename_i h
      exact reads_unquoted_iff (Bool.eq_false_iff.mpr h)

/-- A command substitution is run in slow mode, and a token escaped for `iptables-restore` is cut off by a shell at a bar. -/
theorem shell_runs_token :
    isBacktick "x$(id)".toList = false ∧ ¬ ShReads (shellEscape "x$(id)" false).toList "x$(id)".toList ∧
      isBacktick "a|b".toList = false ∧ ¬ ShReads (shellEscape "a|b" true).toList "a|b".toList :=
  ⟨by decide, fun h => absurd (h []) (by decide), by decide, fun h => absurd (h []) (by decide)⟩

/-! ## Command lines

The commands that append rules, for the families that have no restore format and for the others in slow mode. -/

/-- The command that appends a rule, behind what names the tool and the table. -/
def ruleCommand (tableCmd chain text : String) : String := tableCmd ++ " -A " ++ chain ++ text

/-- The commands that append a chain's rules, escaped for the shell or for `iptables-restore`. -/
def shellRuleCommands (domain : Family) (fast : Bool) (tableCmd chain : String) (info : ChainInfo) : Except FermError (List String) := do
  let texts ← info.rules.mapM fun rule => formatRule domain rule fast
  return texts.map (ruleCommand tableCmd chain)

/-- A scalar's text. -/
def Value.scalar? : Value → Option String
  | scalar text => some text
  | _ => none

/-- The tokens of a value that are escaped. -/
def Value.tokens (value : Value) : List String :=
  match value.unwrapNegation.1 with
  | .params values | .multi values => values.filterMap Value.scalar?
  | .scalar text => [text]
  | _ => []

/-- The words an option is to be read as. -/
def optionWords (keyword : String) (value : Value) : List String :=
  (if value.unwrapNegation.2 = "" then [] else ["!"]) ++
    match value.unwrapNegation.1 with
    | .multi values => (values.filterMap Value.scalar?).flatMap fun text => ["--" ++ keyword, text]
    | _ => ("--" ++ keyword) :: value.tokens

/-- The keyword and the value that are written in a family. -/
def familyOption (domain : Family) (o : RenderedOption) : String × Value :=
  if domain = .ip6 then
    (if o.name = "icmp-type" then "icmpv6-type" else o.name,
      match o.value with
      | .scalar text => .scalar (ip6Value o.name text)
      | value => value)
  else (o.name, o.value)

/-- The words a rule is to be read as. -/
def ruleWords (domain : Family) (rule : RenderedRule) : List String :=
  rule.options.flatMap fun o => optionWords (familyOption domain o).1 (familyOption domain o).2

/-- The keywords of a rule need no quotes, and its tokens are read back. -/
def RuleFaithful (domain : Family) (fast : Bool) (rule : RenderedRule) : Prop :=
  ∀ o ∈ rule.options, (∀ c ∈ (familyOption domain o).1.toList, isLiteral c = true) ∧
    ∀ token ∈ (familyOption domain o).2.tokens, ShellFaithful token.toList fast

namespace ShellAux

/-- Read from a point outside quotes, the text ends the word before it and adds the words. -/
def Appends (text : List Char) (words : List String) : Prop :=
  ∀ s : ShState, s.mode = .unquoted → ∃ s', s.run text = some s' ∧ s'.mode = .unquoted ∧
    s'.close = .between (s.close.words ++ words.map String.toList)

theorem Appends.nil : Appends [] [] := fun s h => ⟨s, rfl, h, by cases s; simp [close, between]⟩

theorem Appends.append {text text' : List Char} {words words' : List String} (h : Appends text words) (h' : Appends text' words') :
    Appends (text ++ text') (words ++ words') := by
  intro s hs
  obtain ⟨s₁, hrun, hmode, hclose⟩ := h s hs
  obtain ⟨s₂, hrun', hmode', hclose'⟩ := h' s₁ hmode
  refine ⟨s₂, by rw [run_append, hrun, Option.bind_some, hrun'], hmode', ?_⟩
  rw [hclose', hclose]
  simp [between]

/-- A blank and a text that is read as a word. -/
theorem appends_of_reads {text : List Char} {word : String} (h : ShReads text word.toList) : Appends (' ' :: text) [word] := by
  intro s hs
  have hstep : s.step ' ' = some (.between s.close.words) := by simp +decide [step, hs, close, between]
  refine ⟨.within s.close.words word.toList, by rw [run_cons, hstep, Option.bind_some, h], rfl, ?_⟩
  simp [close, within, between]

theorem appends_blank : Appends [' '] [] := by
  intro s hs
  refine ⟨s.close, by simp +decide [step, hs], rfl, ?_⟩
  simp [close, between]

theorem appends_bare {word : String} (h : Bare word.toList) : Appends (" " ++ word).toList [word] := by
  simpa using appends_of_reads (reads_of_bare h)

theorem appends_token {token : String} {fast : Bool} (h : ShellFaithful token.toList fast) :
    Appends (" " ++ shellEscape token fast).toList [token] := by
  simpa using appends_of_reads ((shell_reads_back_iff token fast).mpr h)

theorem bare_keyword {keyword : String} (h : ∀ c ∈ keyword.toList, isLiteral c = true) : Bare ("--" ++ keyword).toList := by
  refine ⟨by simp, ?_, by simp +decide⟩
  simp only [String.toList_append, List.mem_append]
  rintro c (hc | hc)
  · have : c = '-' := by simpa using hc
    subst this
    decide
  · exact h c hc

theorem scalarText_eq_ok {value : Value} {text : String} (h : value.scalarText = .ok text) : value = .scalar text := by
  cases value with
  | scalar text' =>
    cases h
    rfl
  | _ => cases h

/-- Values that are all scalars are their texts. -/
theorem eq_map_scalar_of_mapM {values : List Value} {texts : List String} (h : values.mapM Value.scalarText = .ok texts) :
    values = texts.map .scalar := by
  induction values generalizing texts with
  | nil =>
    cases h
    rfl
  | cons value values ih =>
    rw [List.mapM_cons, Except.bind_eq_ok] at h
    obtain ⟨text, htext, h⟩ := h
    rw [Except.bind_eq_ok] at h
    obtain ⟨rest, hrest, h⟩ := h
    cases h
    rw [scalarText_eq_ok htext, ih hrest, List.map_cons]

theorem filterMap_scalar? (texts : List String) : (texts.map Value.scalar).filterMap Value.scalar? = texts := by
  rw [List.filterMap_map]
  exact List.filterMap_some

/-- Tokens one after the other. -/
theorem appends_tokens {texts : List String} {fast : Bool} (h : ∀ t ∈ texts, ShellFaithful t.toList fast) :
    Appends (" " ++ String.intercalate " " (texts.map fun t => shellEscape t fast)).toList texts := by
  induction texts with
  | nil => simpa using appends_blank
  | cons t texts ih =>
    rw [List.forall_mem_cons] at h
    cases texts with
    | nil => simpa using appends_token h.1
    | cons t' texts =>
      simpa [String.intercalate_cons_cons] using (appends_token h.1).append (ih h.2)

/-- A keyword before every token. -/
theorem appends_repeated {keyword : String} {texts : List String} {fast : Bool} (hkeyword : Bare ("--" ++ keyword).toList)
    (h : ∀ t ∈ texts, ShellFaithful t.toList fast) :
    Appends (String.join (texts.map fun t => " --" ++ keyword ++ " " ++ shellEscape t fast)).toList
      (texts.flatMap fun text => ["--" ++ keyword, text]) := by
  induction texts with
  | nil => exact Appends.nil
  | cons t texts ih =>
    rw [List.forall_mem_cons] at h
    simpa using ((appends_bare hkeyword).append (appends_token h.1)).append (ih h.2)

/-- The sign of a negated value. -/
theorem appends_negation (value : Value) :
    Appends value.unwrapNegation.2.toList (if value.unwrapNegation.2 = "" then [] else ["!"]) := by
  have hsign : value.unwrapNegation.2 = "" ∨ value.unwrapNegation.2 = " !" := by
    unfold Value.unwrapNegation
    split <;> simp
  rcases hsign with h | h <;> rw [h]
  · exact Appends.nil
  · exact appends_bare (show Bare "!".toList by decide)

/-- An option is read as its words. -/
theorem appends_option {keyword : String} {value : Value} {fast : Bool} {text : String}
    (h : shellFormatOption keyword value fast = .ok text) (hkeyword : ∀ c ∈ keyword.toList, isLiteral c = true)
    (htokens : ∀ token ∈ value.tokens, ShellFaithful token.toList fast) : Appends text.toList (optionWords keyword value) := by
  have hbare := appends_bare (bare_keyword hkeyword)
  have hneg := appends_negation value
  simp only [shellFormatOption] at h
  simp only [optionWords, Value.tokens] at htokens ⊢
  split at h <;> rename_i hshape <;> simp only [hshape] at htokens ⊢
  · cases h
    simpa using hneg.append hbare
  · obtain ⟨texts, htexts, h⟩ := Except.bind_eq_ok.1 h
    cases h
    obtain rfl := eq_map_scalar_of_mapM htexts
    rw [filterMap_scalar?] at htokens ⊢
    simpa using (hneg.append hbare).append (appends_tokens htokens)
  · obtain ⟨texts, htexts, h⟩ := Except.bind_eq_ok.1 h
    cases h
    obtain rfl := eq_map_scalar_of_mapM htexts
    rw [filterMap_scalar?] at htokens ⊢
    simpa using hneg.append (appends_repeated (bare_keyword hkeyword) htokens)
  · cases h
  · cases h
    simpa using (hneg.append hbare).append (appends_token (htokens _ (by simp)))
  all_goals cases h

end ShellAux

theorem formatOption_eq_family (domain : Family) (o : RenderedOption) (fast : Bool) :
    formatOption domain o.name o.value fast = shellFormatOption (familyOption domain o).1 (familyOption domain o).2 fast := by
  unfold formatOption familyOption
  split <;> rfl

/-- A rule is read as its words. -/
theorem appends_rule {domain : Family} {fast : Bool} {rule : RenderedRule} {text : String}
    (h : formatRule domain rule fast = .ok text) (hrule : RuleFaithful domain fast rule) :
    Appends text.toList (ruleWords domain rule) := by
  obtain ⟨texts, htexts, htext⟩ := Except.bind_eq_ok.1 h
  cases htext
  clear h
  rw [RuleFaithful] at hrule
  rw [ruleWords]
  generalize rule.options = options at htexts hrule ⊢
  induction options generalizing texts with
  | nil =>
    cases htexts
    exact Appends.nil
  | cons o options ih =>
    rw [List.mapM_cons, Except.bind_eq_ok] at htexts
    obtain ⟨text, htext, htexts⟩ := htexts
    rw [Except.bind_eq_ok] at htexts
    obtain ⟨rest, hrest, htexts⟩ := htexts
    cases htexts
    rw [List.forall_mem_cons] at hrule
    rw [formatOption_eq_family] at htext
    simpa using (appends_option htext hrule.1.1 hrule.1.2).append (ih rest hrest hrule.2)

/-- What is added to a command outside quotes is added to its words. -/
theorem shWords_append {before text : List Char} {words words' : List String}
    (hbefore : shWords before = some (words.map String.toList)) (htext : Appends text words') :
    shWords (before ++ text) = some ((words ++ words').map String.toList) := by
  rw [shWords, Option.bind_eq_some_iff] at hbefore
  obtain ⟨s, hrun, hs⟩ := hbefore
  split at hs
  · rename_i hmode
    obtain ⟨s', hrun', hmode', hclose⟩ := htext s hmode
    rw [shWords, run_append, hrun, Option.bind_some, hrun', Option.bind_some, if_pos hmode', hclose, Option.some.inj hs]
    simp [between]
  · cases hs

/-- A command that appends a rule whose tokens are read back is read as the words of the tool and the table, the chain, and the
words of the rule. -/
theorem shWords_ruleCommand {domain : Family} {fast : Bool} {rule : RenderedRule} {tableCmd chain text : String}
    {tableWords : List String} (h : formatRule domain rule fast = .ok text) (hrule : RuleFaithful domain fast rule)
    (htable : shWords tableCmd.toList = some (tableWords.map String.toList)) (hchain : Bare chain.toList) :
    shWords (ruleCommand tableCmd chain text).toList =
      some ((tableWords ++ ("-A" :: chain :: ruleWords domain rule)).map String.toList) := by
  have hdash : Appends " -A".toList ["-A"] := appends_bare (show Bare "-A".toList by decide)
  have htext := (hdash.append (appends_bare hchain)).append (appends_rule h hrule)
  simpa [ruleCommand] using shWords_append htable htext

/-- Every command that appends a rule to a chain is read as its words, when the chain's rules are read back. -/
theorem shWords_shellRuleCommands {domain : Family} {fast : Bool} {tableCmd chain : String} {info : ChainInfo}
    {commands : List String} {tableWords : List String} (h : shellRuleCommands domain fast tableCmd chain info = .ok commands)
    (htable : shWords tableCmd.toList = some (tableWords.map String.toList)) (hchain : Bare chain.toList)
    (hrules : ∀ rule ∈ info.rules, RuleFaithful domain fast rule) :
    commands.map (fun command => shWords command.toList) =
      info.rules.map fun rule => some ((tableWords ++ ("-A" :: chain :: ruleWords domain rule)).map String.toList) := by
  obtain ⟨texts, htexts, hcommands⟩ := Except.bind_eq_ok.1 h
  cases hcommands
  clear h
  generalize info.rules = rules at htexts hrules ⊢
  induction rules generalizing texts with
  | nil =>
    cases htexts
    rfl
  | cons rule rules ih =>
    rw [List.mapM_cons, Except.bind_eq_ok] at htexts
    obtain ⟨text, htext, htexts⟩ := htexts
    rw [Except.bind_eq_ok] at htexts
    obtain ⟨rest, hrest, htexts⟩ := htexts
    cases htexts
    rw [List.forall_mem_cons] at hrules
    rw [List.map_cons, List.map_cons, List.map_cons, shWords_ruleCommand htext hrules.1 htable hchain, ih rest hrest hrules.2]

end Ferm
